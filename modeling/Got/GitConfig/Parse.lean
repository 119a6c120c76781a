import Mathlib.Data.List.DropRight
import Got.CString

/-!
# The parser of the git configuration

The file is read into a buffer, and each of its lines is parsed there: the newline is overwritten
by a zero, and so is what comes behind the tag and behind the value. What is behind the line
in the buffer are the lines that follow.

A parser which is given a buffer that ends with the line fails if it reads on. If it does not
fail there, then it neither reads nor changes what follows the line in any other buffer
(`confParseLine_frame`).
-/

namespace Got

namespace GitConfig

/-- `isspace(3)` of the characters in `" \t"`. -/
def isBlank (c : UInt8) : Bool := c = 0x20 ∨ c = 0x09

/-- The characters in `" \t="`, and the end of the string. -/
def endsTag (c : UInt8) : Bool := c = 0x20 ∨ c = 0x09 ∨ c = 0x3d ∨ c = 0

/-- A byte of the buffer. -/
def byteAt (buf : Bytes) (i : ℕ) : Except GotErr UInt8 :=
  match buf[i]? with
  | some c => .ok c
  | none => .error .outOfMap

/-- The string which begins at some place of the buffer. -/
def strAt (buf : Bytes) (i : ℕ) : Except GotErr Bytes :=
  if 0 ∈ buf.drop i then .ok ((buf.drop i).takeWhile (· ≠ 0)) else .error .outOfMap

/-- The first place from `i` on where a character is, among the next `n`. -/
def findByte (c : UInt8) (line : Bytes) : ℕ → ℕ → Except GotErr (Option ℕ)
  | _, 0 => .ok none
  | i, n + 1 => do
    let b ← byteAt line i
    if b = c then return some i else findByte c line (i + 1) n

/-- White space at the start of a line is skipped. -/
def skipSpaces (buf : Bytes) : Except GotErr ℕ :=
  let k := (buf.takeWhile isspace).length
  if k < buf.length then .ok k else .error .outOfMap

/-- Trailing white space of a value is overwritten, from `val[j]` on backwards to `val[1]`. -/
def trimValue (line : Bytes) (val : ℕ) : ℕ → Except GotErr Bytes
  | 0 => .ok line
  | j + 1 => do
    let b ← byteAt line (val + (j + 1))
    if isspace b then trimValue (line.set (val + (j + 1)) 0) val j else return line

/-- What `got_gitconfig_set` queues: a section, a tag and a value. -/
abbrev Setting := Bytes × Bytes × Bytes

/-- **What a line does**: the section afterwards, what it sets, and the buffer. -/
abbrev LineResult := Option Bytes × Option Setting × Bytes

/-- A line with an equal sign, which is at `i`, in a section. The tag ends at `tagEnd`, and the
value begins at `val`. -/
def parseAssignment (sec line : Bytes) (i sz : ℕ) : Except GotErr (Setting × Bytes) := do
  let tagEnd := (line.takeWhile (!endsTag ·)).length
  let line := line.set tagEnd 0
  let val := i + 1 + ((line.drop (i + 1)).takeWhile isBlank).length
  let line ← trimValue line val (sz - val - 1)
  let tag ← strAt line 0
  let value ← strAt line val
  return ((sec, tag, value), line)

/-- `conf_parse_line`, of the line of `sz` bytes at the start of the buffer. What is printed
about lines that are not understood is left out. -/
def confParseLine (sectionName : Option Bytes) (buf : Bytes) (sz : ℕ) : Except GotErr LineResult :=
  do
  let c ← byteAt buf 0
  if c = 0x23 ∨ c = 0x3b then return (sectionName, none, buf)
  else if c = 0x5b then
    match ← findByte 0x5d buf 1 (sz - 1) with
    | none => return (none, none, buf)
    | some i =>
      let name ← strAt buf 1
      return (some (name.take (i - 1)), none, buf)
  else
    let k ← skipSpaces buf
    let line := buf.drop k
    match ← findByte 0x3d line 0 sz with
    | none => return (sectionName, none, buf)
    | some i =>
      match sectionName with
      | none => return (none, none, buf)
      | some sec =>
        let (setting, line) ← parseAssignment sec line i sz
        return (sectionName, some setting, buf.take k ++ line)

/-- The loop of `conf_parse` over the `n` bytes which are left in the buffer, with the part of
the line that was seen. -/
def confParseLoop (sectionName : Option Bytes) :
    (n : ℕ) → (line rest : Bytes) → Except GotErr (List Setting)
  | 0, _, _ => .ok []
  | _ + 1, _, [] => .ok []
  | n + 1, line, c :: rest =>
    if c = 0x0a then
      -- an escaped newline is replaced by blanks
      if line.getLast? = some 0x5c then
        confParseLoop sectionName n (line.dropLast ++ [0x20, 0x20]) rest
      else do
        let (sectionName, setting, buf) ← confParseLine sectionName (line ++ 0 :: rest) line.length
        let settings ← confParseLoop sectionName n [] (buf.drop (line.length + 1))
        return setting.toList ++ settings
    else confParseLoop sectionName n (line ++ [c]) rest

/-- **`conf_parse`**: what a configuration file sets, in this order. A last line without a newline
is ignored. -/
def confParse (content : Bytes) : Except GotErr (List Setting) :=
  confParseLoop none content.length [] content

/-! ## Nothing is read behind the buffer -/

variable {buf buf' line : Bytes} {i j k n val : ℕ} {c : UInt8}

/-- A byte can be read where there is one. -/
theorem byteAt_eq_ok_iff : byteAt buf i = .ok c ↔ buf[i]? = some c := by
  unfold byteAt
  cases buf[i]? with
  | none => exact ⟨fun h => (nomatch h), fun h => (nomatch h)⟩
  | some b => exact ⟨fun h => congrArg some (Except.ok.inj h),
      fun h => congrArg Except.ok (Option.some.inj h)⟩

theorem byteAt_append (h : byteAt buf i = .ok c) (rest : Bytes) :
    byteAt (buf ++ rest) i = .ok c := by
  rw [byteAt_eq_ok_iff] at h ⊢
  obtain ⟨hi, -⟩ := List.getElem?_eq_some_iff.mp h
  rw [List.getElem?_append_left hi, h]

/-- What is taken from the front is the same if it does not reach the end. -/
theorem takeWhile_append_of_lt {p : UInt8 → Bool} (h : (buf.takeWhile p).length < buf.length)
    (rest : Bytes) : (buf ++ rest).takeWhile p = buf.takeWhile p := by
  induction buf with
  | nil => exact absurd h (lt_irrefl _)
  | cons b buf ih =>
    rw [List.cons_append]
    by_cases hb : p b
    · rw [List.takeWhile_cons_of_pos hb] at h ⊢
      rw [List.takeWhile_cons_of_pos hb, ih (Nat.lt_of_succ_lt_succ h)]
    · rw [List.takeWhile_cons_of_neg hb, List.takeWhile_cons_of_neg hb]

theorem takeWhile_length_lt {p : UInt8 → Bool} (hc : c ∈ buf) (hp : p c = false) :
    (buf.takeWhile p).length < buf.length := by
  refine lt_of_le_of_ne (List.takeWhile_sublist p).length_le fun heq => ?_
  have hall := List.takeWhile_eq_self_iff.mp ((List.takeWhile_sublist p).eq_of_length heq)
  rw [hall c hc] at hp
  exact nomatch hp

theorem lt_length_of_strAt {s : Bytes} (h : strAt buf i = .ok s) : i < buf.length := by
  unfold strAt at h
  split at h
  · next hmem =>
    by_contra hle
    rw [List.drop_eq_nil_of_le (le_of_not_gt hle)] at hmem
    exact absurd hmem List.not_mem_nil
  · cases h

/-- A string that ends inside the buffer is the same with more behind it. -/
theorem strAt_append {s : Bytes} (h : strAt buf i = .ok s) (rest : Bytes) :
    strAt (buf ++ rest) i = .ok s := by
  unfold strAt at h ⊢
  split at h
  · next hmem =>
    have hi := lt_length_of_strAt (if_pos hmem)
    rw [List.drop_append_of_le_length hi.le, if_pos (List.mem_append_left rest hmem),
      takeWhile_append_of_lt (takeWhile_length_lt hmem (by decide)), h]
  · cases h

/-- A search that stays inside the buffer finds the same with more behind it. -/
theorem findByte_append {found : Option ℕ} (h : findByte c buf i n = .ok found) (rest : Bytes) :
    findByte c (buf ++ rest) i n = .ok found := by
  induction n generalizing i with
  | zero => exact h
  | succ n ih =>
    obtain ⟨b, hb, h⟩ := bind_eq_ok_iff.mp h
    rw [findByte, byteAt_append hb, ok_bind]
    split at h
    · next heq => rw [if_pos heq]; exact h
    · next hne => rw [if_neg hne]; exact ih h

/-- What is found is there. -/
theorem findByte_some (h : findByte c buf i n = .ok (some j)) : buf[j]? = some c ∧ i ≤ j := by
  induction n generalizing i with
  | zero => cases h
  | succ n ih =>
    obtain ⟨b, hb, h⟩ := bind_eq_ok_iff.mp h
    split at h
    · next heq =>
      cases h
      exact ⟨heq ▸ byteAt_eq_ok_iff.mp hb, le_refl _⟩
    · obtain ⟨hj, hle⟩ := ih h
      exact ⟨hj, Nat.le_of_succ_le hle⟩

/-- Skipping spaces stops inside the line, whatever is behind it. -/
theorem skipSpaces_append (h : skipSpaces buf = .ok k) (rest : Bytes) :
    skipSpaces (buf ++ rest) = .ok k ∧ k < buf.length := by
  unfold skipSpaces at h ⊢
  dsimp only at h ⊢
  split at h
  · next hlt =>
    obtain rfl := Except.ok.inj h
    rw [takeWhile_append_of_lt hlt, if_pos (by rw [List.length_append]; omega)]
    exact ⟨rfl, hlt⟩
  · cases h

/-- Trimming a value writes inside the line and keeps its length. -/
theorem trimValue_append (h : trimValue buf val j = .ok buf') (rest : Bytes) :
    trimValue (buf ++ rest) val j = .ok (buf' ++ rest) ∧ buf'.length = buf.length := by
  induction j generalizing buf with
  | zero =>
    obtain rfl := Except.ok.inj h
    exact ⟨rfl, rfl⟩
  | succ j ih =>
    obtain ⟨b, hb, h⟩ := bind_eq_ok_iff.mp h
    rw [trimValue, byteAt_append hb, ok_bind]
    split at h
    · next hspace =>
      obtain ⟨hlt, -⟩ := List.getElem?_eq_some_iff.mp (byteAt_eq_ok_iff.mp hb)
      obtain ⟨htrim, hlen⟩ := ih h
      rw [if_pos hspace, List.set_append_left _ _ hlt]
      exact ⟨htrim, hlen.trans List.length_set⟩
    · next hspace =>
      obtain rfl := Except.ok.inj h
      rw [if_neg hspace]
      exact ⟨rfl, rfl⟩

/-- An assignment of the line is read from the line alone. -/
theorem parseAssignment_append {sec : Bytes} {sz : ℕ} {setting : Setting}
    (h : parseAssignment sec line i sz = .ok (setting, buf)) (hi : (line)[i]? = some 0x3d)
    (rest : Bytes) : parseAssignment sec (line ++ rest) i sz = .ok (setting, buf ++ rest) ∧
      buf.length = line.length := by
  obtain ⟨hlt, hget⟩ := List.getElem?_eq_some_iff.mp hi
  have htag : (line.takeWhile (!endsTag ·)).length < line.length :=
    takeWhile_length_lt (hget ▸ List.getElem_mem hlt) (by decide)
  unfold parseAssignment at h ⊢
  rw [takeWhile_append_of_lt htag]
  obtain ⟨line', htrim, h⟩ := bind_eq_ok_iff.mp h
  obtain ⟨tag, htagStr, h⟩ := bind_eq_ok_iff.mp h
  obtain ⟨value, hvalue, h⟩ := bind_eq_ok_iff.mp h
  cases h
  generalize hline₁ : line.set (line.takeWhile (!endsTag ·)).length 0 = line₁ at htrim hvalue
  have hlen : line₁.length = line.length := by rw [← hline₁, List.length_set]
  obtain ⟨htrim', hlen'⟩ := trimValue_append htrim rest
  -- the value begins before the end of the buffer, so the blanks in front of it end there
  have hval := lt_length_of_strAt hvalue
  have hblank : (((line₁ ++ rest).drop (i + 1)).takeWhile isBlank) =
      (line₁.drop (i + 1)).takeWhile isBlank := by
    rw [List.drop_append_of_le_length (by omega)]
    exact takeWhile_append_of_lt (by rw [List.length_drop]; omega) rest
  refine ⟨?_, by rw [hlen', hlen]⟩
  dsimp only
  rw [List.set_append_left _ _ htag, hline₁, hblank, htrim', ok_bind, strAt_append htagStr, ok_bind,
    strAt_append hvalue, ok_bind]
  rfl

/-- **What is done with a line needs nothing behind it**, if it is done without. -/
theorem confParseLine_frame {sectionName : Option Bytes} {sz : ℕ} {result : LineResult}
    (h : confParseLine sectionName buf sz = .ok result) (rest : Bytes) :
    confParseLine sectionName (buf ++ rest) sz = .ok (result.1, result.2.1, result.2.2 ++ rest) ∧
      result.2.2.length = buf.length := by
  unfold confParseLine at h ⊢
  obtain ⟨c, hc, h⟩ := bind_eq_ok_iff.mp h
  rw [byteAt_append hc, ok_bind]
  split at h
  · next hcomment =>
    cases h
    rw [if_pos hcomment]
    exact ⟨rfl, rfl⟩
  · next hcomment =>
    rw [if_neg hcomment]
    split at h
    · next hheader =>
      obtain ⟨found, hfound, h⟩ := bind_eq_ok_iff.mp h
      rw [if_pos hheader, findByte_append hfound, ok_bind]
      cases found with
      | none =>
        cases h
        exact ⟨rfl, rfl⟩
      | some j =>
        obtain ⟨name, hname, h⟩ := bind_eq_ok_iff.mp h
        cases h
        dsimp only
        rw [strAt_append hname]
        exact ⟨rfl, rfl⟩
    · next hheader =>
      obtain ⟨k, hk, h⟩ := bind_eq_ok_iff.mp h
      obtain ⟨hk', hlt⟩ := skipSpaces_append hk rest
      rw [if_neg hheader, hk', ok_bind]
      obtain ⟨found, hfound, h⟩ := bind_eq_ok_iff.mp h
      dsimp only
      rw [List.drop_append_of_le_length hlt.le, findByte_append hfound, ok_bind]
      cases found with
      | none =>
        cases h
        exact ⟨rfl, rfl⟩
      | some i =>
        cases sectionName with
        | none =>
          cases h
          exact ⟨rfl, rfl⟩
        | some sec =>
          obtain ⟨⟨setting, line'⟩, hassign, h⟩ := bind_eq_ok_iff.mp h
          cases h
          obtain ⟨hassign', hlen⟩ := parseAssignment_append hassign (findByte_some hfound).1 rest
          dsimp only
          rw [hassign', ok_bind, List.take_append_of_le_length hlt.le, List.append_assoc]
          refine ⟨rfl, ?_⟩
          rw [List.length_append, hlen, ← List.length_append, List.take_append_drop]

end GitConfig

end Got

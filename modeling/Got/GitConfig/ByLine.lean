import Got.GitConfig.Parse

/-!
# Lines of the git configuration

What a line does should be seen from the line and from the section it is in. The parser goes
over the white space in front of a line, but it goes on with the size that the line has as a
whole. So it looks as far behind the line as the line is indented.

One byte of indentation is not too much, since a line ends with a zero. With two of them the
parser reads the next line, unless it has found an equal sign and there is no section
(`ok_iff`). What it does with assignments that have less than that is `parseAssignment_spec`.
-/

namespace Got

namespace GitConfig

variable {line pre post buf : Bytes} {i j k n sz val : ℕ} {c : UInt8}

/-! ## What is read -/

/-- What is not in the buffer is not found there. -/
theorem findByte_none (hc : c ∉ buf) (h : i + n ≤ buf.length) : findByte c buf i n = .ok none := by
  induction n generalizing i with
  | zero => rfl
  | succ n ih =>
    have hi : i < buf.length := by omega
    have hb : byteAt buf i = .ok buf[i] := byteAt_eq_ok_iff.mpr (List.getElem?_eq_getElem hi)
    rw [findByte, hb, ok_bind, if_neg fun heq : buf[i] = c => hc (heq ▸ List.getElem_mem hi)]
    exact ih (by omega)

/-- **The first place is found.** -/
theorem findByte_append_cons (hpre : c ∉ pre) (hn : pre.length < n) (front post : Bytes) :
    findByte c (front ++ (pre ++ c :: post)) front.length n =
      .ok (some (front.length + pre.length)) := by
  induction pre generalizing front n with
  | nil =>
    obtain ⟨n, rfl⟩ := Nat.exists_eq_succ_of_ne_zero (Nat.ne_of_gt hn)
    have hb : byteAt (front ++ ([] ++ c :: post)) front.length = .ok c := by
      rw [byteAt_eq_ok_iff, List.getElem?_append_right le_rfl]
      simp
    rw [findByte, hb, ok_bind, if_pos rfl]
    rfl
  | cons b pre ih =>
    obtain ⟨n, rfl⟩ := Nat.exists_eq_succ_of_ne_zero (Nat.ne_of_gt (Nat.zero_lt_of_lt hn))
    have hb : byteAt (front ++ (b :: pre ++ c :: post)) front.length = .ok b := by
      rw [byteAt_eq_ok_iff, List.getElem?_append_right le_rfl]
      simp
    have hne : b ≠ c := fun heq => hpre (heq ▸ List.mem_cons_self)
    have h := ih (fun hc => hpre (List.mem_cons_of_mem _ hc)) (Nat.lt_of_succ_lt_succ hn)
      (front ++ [b])
    rw [List.length_append, List.length_singleton, List.append_assoc] at h
    rw [findByte, hb, ok_bind, if_neg hne, List.length_cons, ← Nat.add_assoc, Nat.add_right_comm]
    exact h

/-- What is not in the buffer is looked for behind it. -/
theorem findByte_error (h : c ∉ buf) (hi : i ≤ buf.length) (hn : buf.length < i + n) :
    findByte c buf i n = .error .outOfMap := by
  induction n generalizing i with
  | zero => omega
  | succ n ih =>
    rw [findByte]
    rcases Nat.lt_or_eq_of_le hi with hi | rfl
    · have hb : byteAt buf i = .ok buf[i] := byteAt_eq_ok_iff.mpr (List.getElem?_eq_getElem hi)
      rw [hb, ok_bind, if_neg fun heq : buf[i] = c => h (heq ▸ List.getElem_mem hi)]
      exact ih hi (by omega)
    · have hb : byteAt buf buf.length = .error .outOfMap := by
        rw [byteAt, List.getElem?_eq_none le_rfl]
      rw [hb]
      rfl

/-- The zero behind a line ends what is taken from its front. -/
theorem takeWhile_append_cons {p : UInt8 → Bool} (hc : p c = false) (post : Bytes) :
    (line ++ c :: post).takeWhile p = line.takeWhile p := by
  rw [List.takeWhile_append]
  split
  · next hlen =>
    rw [List.takeWhile_cons_of_neg (by rw [hc]; decide), List.append_nil,
      (List.takeWhile_sublist _).eq_of_length hlen]
  · rfl

/-! ## Assignments -/

/-- The value without its trailing white space, whose first byte is not looked at. -/
def trimTail : Bytes → Bytes
  | [] => []
  | b :: bs => b :: bs.rdropWhile isspace

/-- **Trailing white space is overwritten by zeros.** -/
theorem trimValue_spec (front : Bytes) (b : UInt8) (bs tail : Bytes) :
    ∃ zeros, trimValue (front ++ b :: (bs ++ tail)) front.length bs.length =
      .ok (front ++ (b :: bs.rdropWhile isspace) ++ (zeros ++ tail)) ∧ ∀ z ∈ zeros, z = 0 := by
  induction bs using List.reverseRecOn generalizing tail with
  | nil => exact ⟨[], by simp [trimValue], fun _ h => absurd h List.not_mem_nil⟩
  | append_singleton bs x ih =>
    have hx : byteAt (front ++ b :: (bs ++ [x] ++ tail)) (front.length + (bs.length + 1))
      = .ok x := by
      rw [byteAt_eq_ok_iff, List.getElem?_append_right (by omega)]
      simp
    rw [List.length_append, List.length_singleton, trimValue, hx, ok_bind]
    by_cases hspace : isspace x
    · have hset : (front ++ b :: (bs ++ [x] ++ tail)).set (front.length + (bs.length + 1)) 0 =
          front ++ b :: (bs ++ 0 :: tail) := by
        rw [List.set_append_right _ _ (by omega)]
        simp
      obtain ⟨zeros, htrim, hzeros⟩ := ih (0 :: tail)
      rw [if_pos hspace, hset, htrim, List.rdropWhile_concat_pos _ _ _ hspace]
      refine ⟨zeros ++ [0], by simp, fun z hz => ?_⟩
      rcases List.mem_append.mp hz with hz | hz
      · exact hzeros z hz
      · exact List.mem_singleton.mp hz
    · rw [if_neg hspace, List.rdropWhile_concat_neg _ _ _ hspace]
      exact ⟨[], by simp; rfl, fun _ h => absurd h List.not_mem_nil⟩

/-- The string in front of the first zero. -/
theorem strAt_append_zero {s zeros : Bytes} (hzeros : ∀ z ∈ zeros, z = 0) (front : Bytes) :
    strAt (front ++ s ++ (zeros ++ [0])) front.length = .ok (s.takeWhile (· ≠ 0)) := by
  have hdrop : (front ++ s ++ (zeros ++ [0])).drop front.length = s ++ (zeros ++ [0]) := by
    rw [List.append_assoc, List.drop_left]
  have hstop : (zeros ++ [0]).takeWhile (· ≠ 0) = [] := by
    cases zeros with
    | nil => rfl
    | cons z zeros => rw [List.cons_append, hzeros z List.mem_cons_self]; rfl
  rw [strAt, hdrop, if_pos (by simp), List.takeWhile_append]
  split
  · next hlen =>
    rw [hstop, List.append_nil, List.takeWhile_eq_self_iff.mpr]
    exact List.takeWhile_eq_self_iff.mp ((List.takeWhile_sublist _).eq_of_length hlen)
  · rfl

/-- The tag ends where the zero is put. -/
theorem strAt_tag (pre rest : Bytes) :
    strAt ((pre ++ [0x3d]).set (pre.takeWhile (!endsTag ·)).length 0 ++ rest) 0 =
      .ok (pre.takeWhile (!endsTag ·)) := by
  have hsplit : ∃ more, (pre ++ [0x3d]).set (pre.takeWhile (!endsTag ·)).length 0 =
      pre.takeWhile (!endsTag ·) ++ 0 :: more := by
    have hlt : (pre.takeWhile (!endsTag ·)).length ≤ pre.length :=
      (List.takeWhile_sublist _).length_le
    have htake : (pre ++ [0x3d]).take (pre.takeWhile (!endsTag ·)).length =
        pre.takeWhile (!endsTag ·) := by
      rw [List.take_append_of_le_length hlt]
      exact (List.prefix_iff_eq_take.mp (List.takeWhile_prefix _)).symm
    rw [List.set_eq_take_append_cons_drop,
      if_pos (by rw [List.length_append]; exact Nat.lt_succ_of_le hlt),
      htake]
    exact ⟨_, rfl⟩
  obtain ⟨more, hsplit⟩ := hsplit
  have hne : ∀ c ∈ pre.takeWhile (!endsTag ·), decide (c ≠ 0) = true := fun c hc => by
    have h := List.mem_takeWhile_imp hc
    refine decide_eq_true fun heq => ?_
    rw [heq] at h
    exact absurd h (by decide)
  rw [strAt, List.drop_zero, hsplit, if_pos (by simp), List.append_assoc,
    List.takeWhile_append_of_pos hne, List.cons_append, List.takeWhile_cons_of_neg (by decide),
    List.append_nil]

/-- What is made of the bytes behind the equal sign. A line that is indented by one byte is too
long by one, so that the trailing white space is not found. -/
def valueOf (indent : ℕ) (post : Bytes) : Bytes :=
  let w := post.dropWhile isBlank
  (if indent = 0 then trimTail w else w).takeWhile (· ≠ 0)

/-- The value is trimmed if the line is not indented. -/
theorem trimValue_line (hk : k ≤ 1) (front w : Bytes) :
    ∃ zeros, trimValue (front ++ (w ++ [0])) front.length (k + w.length - 1) =
      .ok (front ++ (if k = 0 then trimTail w else w) ++ (zeros ++ [0])) ∧ ∀ z ∈ zeros, z = 0 := by
  cases w with
  | nil =>
    have hj : k + ([] : Bytes).length - 1 = 0 := by
      rw [List.length_nil]
      omega
    rw [hj]
    exact ⟨[], by simp [trimValue, trimTail], fun _ h => absurd h List.not_mem_nil⟩
  | cons b bs =>
    rcases Nat.le_one_iff_eq_zero_or_eq_one.mp hk with rfl | rfl
    · obtain ⟨zeros, htrim, hzeros⟩ := trimValue_spec front b bs [0]
      have hj : 0 + (b :: bs).length - 1 = bs.length := by
        rw [List.length_cons]
        omega
      rw [hj, if_pos rfl]
      exact ⟨zeros, htrim, hzeros⟩
    · have hj : 1 + (b :: bs).length - 1 = bs.length + 1 := by
        rw [List.length_cons]
        omega
      -- the zero at the end of the line is no white space
      have hend : byteAt (front ++ (b :: bs ++ [0])) (front.length + (bs.length + 1)) = .ok 0 := by
        rw [byteAt_eq_ok_iff, List.getElem?_append_right (by omega)]
        simp
      rw [hj, trimValue, hend, ok_bind, if_neg (by decide), if_neg Nat.one_ne_zero]
      exact ⟨[], by simp; rfl, fun _ h => absurd h List.not_mem_nil⟩

/-- The parts of an assignment: what is in front of the value is a string which ends with the
tag, and the size of the line goes `k` bytes too far. -/
theorem parseAssignment_eq (k : ℕ) (sec pre post : Bytes) :
    ∃ front : Bytes, (∀ rest, strAt (front ++ rest) 0 = .ok (pre.takeWhile (!endsTag ·))) ∧
      parseAssignment sec (pre ++ 0x3d :: (post ++ [0])) pre.length
        (k + (pre.length + (1 + post.length))) = (do
          let line ← trimValue (front ++ (post.dropWhile isBlank ++ [0])) front.length
            (k + (post.dropWhile isBlank).length - 1)
          let tag ← strAt line 0
          let value ← strAt line front.length
          return ((sec, tag, value), line)) := by
  have htag : (pre ++ 0x3d :: (post ++ [0])).takeWhile (!endsTag ·) =
      pre.takeWhile (!endsTag ·) := takeWhile_append_cons (by decide) _
  have hlt : (pre.takeWhile (!endsTag ·)).length < (pre ++ [0x3d]).length := by
    rw [List.length_append]
    exact Nat.lt_succ_of_le (List.takeWhile_sublist _).length_le
  have hset : (pre ++ 0x3d :: (post ++ [0])).set (pre.takeWhile (!endsTag ·)).length 0 =
      (pre ++ [0x3d]).set (pre.takeWhile (!endsTag ·)).length 0 ++ (post ++ [0]) := by
    rw [← List.set_append_left _ _ hlt, List.append_assoc]
    rfl
  have hfront : ((pre ++ [0x3d]).set (pre.takeWhile (!endsTag ·)).length 0).length =
      pre.length + 1 := by
    rw [List.length_set, List.length_append, List.length_singleton]
  have hstr := strAt_tag pre
  unfold parseAssignment
  dsimp only
  rw [htag, hset]
  generalize (pre ++ [0x3d]).set (pre.takeWhile (!endsTag ·)).length 0 = front at hfront hstr ⊢
  have hblank : ((front ++ (post ++ [0])).drop (pre.length + 1)).takeWhile isBlank =
      post.takeWhile isBlank := by
    rw [← hfront, List.drop_left, takeWhile_append_cons (by decide)]
  have hpost : post = post.takeWhile isBlank ++ post.dropWhile isBlank :=
    (List.takeWhile_append_dropWhile).symm
  have hlen : post.length = (post.takeWhile isBlank).length + (post.dropWhile isBlank).length := by
    rw [← List.length_append, ← hpost]
  have hval : pre.length + 1 + (post.takeWhile isBlank).length =
      (front ++ post.takeWhile isBlank).length := by rw [List.length_append, hfront]
  have hj : k + (pre.length + (1 + post.length)) - (front ++ post.takeWhile isBlank).length - 1 =
      k + (post.dropWhile isBlank).length - 1 := by
    rw [List.length_append, hfront]
    omega
  have hbuf : front ++ (post ++ [0]) =
      front ++ post.takeWhile isBlank ++ (post.dropWhile isBlank ++ [0]) := by
    rw [List.append_assoc, ← List.append_assoc (post.takeWhile isBlank), ← hpost]
  refine ⟨front ++ post.takeWhile isBlank, fun rest => ?_, ?_⟩
  · rw [List.append_assoc]
    exact hstr _
  · rw [hblank, hval, hj, hbuf]

/-- **What an assignment sets**, if it is indented by one byte at most. -/
theorem parseAssignment_spec (hk : k ≤ 1) (sec pre post : Bytes) :
    ∃ buf, parseAssignment sec (pre ++ 0x3d :: (post ++ [0])) pre.length
      (k + (pre.length + (1 + post.length))) =
        .ok ((sec, pre.takeWhile (!endsTag ·), valueOf k post), buf) := by
  obtain ⟨front, htag, heq⟩ := parseAssignment_eq k sec pre post
  obtain ⟨zeros, htrim, hzeros⟩ := trimValue_line hk front (post.dropWhile isBlank)
  rw [heq, htrim, ok_bind, strAt_append_zero hzeros, List.append_assoc, htag]
  exact ⟨_, rfl⟩

/-- With more indentation, what is behind the line is read. -/
theorem parseAssignment_error (hk : 2 ≤ k) (sec pre post : Bytes) :
    parseAssignment sec (pre ++ 0x3d :: (post ++ [0])) pre.length
      (k + (pre.length + (1 + post.length))) = .error .outOfMap := by
  obtain ⟨front, -, heq⟩ := parseAssignment_eq k sec pre post
  obtain ⟨m, hm⟩ : ∃ m, k + (post.dropWhile isBlank).length - 1 = m + 1 :=
    Nat.exists_eq_succ_of_ne_zero (by omega)
  have hb : byteAt (front ++ (post.dropWhile isBlank ++ [0])) (front.length + (m + 1)) =
      .error .outOfMap := by
    rw [byteAt, List.getElem?_eq_none]
    rw [List.length_append, List.length_append, List.length_singleton]
    omega
  rw [heq, hm, trimValue, hb]
  rfl

/-! ## What stays in the line -/

/-- How far a line is indented. -/
def indent (line : Bytes) : ℕ := (line.takeWhile isspace).length

/-- **A line behind which nothing is read**: a comment, the name of a section, a line which is
not indented by more than one byte, or an assignment without a section. -/
def StaysInLine (sectionName : Option Bytes) (line : Bytes) : Prop :=
  line.head? = some 0x23 ∨ line.head? = some 0x3b ∨ line.head? = some 0x5b ∨ indent line ≤ 1 ∨
    sectionName = none ∧ 0x3d ∈ line.drop (indent line)

theorem indent_le (line : Bytes) : indent line ≤ line.length := (List.takeWhile_sublist _).length_le

/-- The spaces that are skipped are those the line is indented by. -/
theorem skipSpaces_line (line : Bytes) : skipSpaces (line ++ [0]) = .ok (indent line) := by
  unfold skipSpaces
  dsimp only
  rw [takeWhile_append_cons (by decide),
    if_pos (by rw [List.length_append]; exact Nat.lt_succ_of_le (indent_le line))]
  rfl

/-- A line that is no comment, and does not name a section. -/
theorem confParseLine_plain (sectionName : Option Bytes)
    (hplain : line.head? ≠ some 0x23 ∧ line.head? ≠ some 0x3b ∧ line.head? ≠ some 0x5b) :
    confParseLine sectionName (line ++ [0]) line.length = (do
      match ← findByte 0x3d (line.drop (indent line) ++ [0]) 0 line.length with
      | none => return (sectionName, none, line ++ [0])
      | some i =>
        match sectionName with
        | none => return (none, none, line ++ [0])
        | some sec =>
          let (setting, line') ← parseAssignment sec (line.drop (indent line) ++ [0]) i line.length
          return (sectionName, some setting, (line ++ [0]).take (indent line) ++ line')) := by
  obtain ⟨c, hc, h₁, h₂⟩ : ∃ c, byteAt (line ++ [0]) 0 = .ok c ∧ ¬(c = 0x23 ∨ c = 0x3b)
    ∧ c ≠ 0x5b := by
    cases line with
    | nil => exact ⟨0, rfl, by decide, by decide⟩
    | cons c line =>
      refine ⟨c, rfl, ?_, fun h => hplain.2.2 (congrArg some h)⟩
      rintro (h | h)
      · exact hplain.1 (congrArg some h)
      · exact hplain.2.1 (congrArg some h)
  rw [← List.drop_append_of_le_length (indent_le line), confParseLine, hc, ok_bind, if_neg h₁,
    if_neg h₂, skipSpaces_line]
  rfl

/-! ## What a line does on its own -/

/-- The section in which the next line is. -/
def sectionAfter (sectionName : Option Bytes) : Bytes → Option Bytes
  | [] => sectionName
  | c :: name =>
    if c = 0x5b then
      if 0x5d ∈ name then some ((name.takeWhile (· ≠ 0x5d)).takeWhile (· ≠ 0)) else none
    else sectionName

theorem sectionAfter_of_ne (sectionName : Option Bytes) (h : line.head? ≠ some 0x5b) :
    sectionAfter sectionName line = sectionName := by
  cases line with
  | nil => rfl
  | cons c line => rw [sectionAfter, if_neg fun heq => h (congrArg some heq)]

/-- A comment is skipped. -/
theorem confParseLine_comment (sectionName : Option Bytes) (sz : ℕ)
    (h : line.head? = some 0x23 ∨ line.head? = some 0x3b) :
    confParseLine sectionName (line ++ [0]) sz = .ok (sectionName, none, line ++ [0]) := by
  cases line with
  | nil => rcases h with h | h <;> exact nomatch h
  | cons c line =>
    have hc : c = 0x23 ∨ c = 0x3b := h.imp Option.some.inj Option.some.inj
    have hbyte : byteAt (c :: line ++ [0]) 0 = .ok c := rfl
    unfold confParseLine
    rw [hbyte, ok_bind, if_pos hc]
    rfl

/-- The string up to a place is the string in what is in front of the place. -/
theorem take_takeWhile_append (pre post : Bytes) (p : UInt8 → Bool) :
    ((pre ++ post).takeWhile p).take pre.length = pre.takeWhile p := by
  rw [List.takeWhile_append]
  split
  · next hlen =>
    rw [(List.takeWhile_sublist p).eq_of_length hlen, List.take_left]
  · rw [List.take_of_length_le (List.takeWhile_sublist p).length_le]

/-- The name of a section is what is between the brackets. -/
theorem confParseLine_header (sectionName : Option Bytes) (name : Bytes) :
    confParseLine sectionName (0x5b :: name ++ [0]) (0x5b :: name).length =
      .ok (sectionAfter sectionName (0x5b :: name), none, 0x5b :: name ++ [0]) := by
  have hbyte : byteAt (0x5b :: name ++ [0]) 0 = .ok 0x5b := rfl
  unfold confParseLine
  rw [hbyte, ok_bind, if_neg (by decide), if_pos rfl, sectionAfter, if_pos rfl, List.length_cons,
    Nat.add_sub_cancel]
  by_cases hmem : (0x5d : UInt8) ∈ name
  · obtain ⟨pre, post, rfl, hpre⟩ := List.eq_append_cons_of_mem hmem
    have hfound : findByte 0x5d (0x5b :: (pre ++ 0x5d :: post) ++ [0]) 1
      (pre ++ 0x5d :: post).length =
        .ok (some (1 + pre.length)) := by
      have h := findByte_append_cons (n := (pre ++ 0x5d :: post).length) hpre
        (by simp) [0x5b] (post ++ [0])
      rw [List.length_singleton] at h
      rw [← h]
      simp
    have hname : strAt (0x5b :: (pre ++ 0x5d :: post) ++ [0]) 1 =
        .ok ((pre ++ (0x5d :: post ++ [0])).takeWhile (· ≠ 0)) := by
      rw [strAt]
      simp
    have hall : (pre ++ 0x5d :: post).takeWhile (· ≠ 0x5d) = pre := by
      rw [takeWhile_append_cons (by decide), List.takeWhile_eq_self_iff]
      exact fun c hc => decide_eq_true fun heq => hpre (heq ▸ hc)
    rw [hfound, ok_bind, if_pos hmem, hall]
    dsimp only
    rw [hname, ok_bind, Nat.add_sub_cancel_left, take_takeWhile_append]
    rfl
  · have hnone : (0x5d : UInt8) ∉ 0x5b :: name ++ [0] := by simp [hmem]
    rw [findByte_none hnone (by rw [List.length_append, List.length_cons]; omega), ok_bind,
      if_neg hmem]
    rfl

/-- A line with an equal sign. -/
theorem confParseLine_equals (sectionName : Option Bytes)
    (hplain : line.head? ≠ some 0x23 ∧ line.head? ≠ some 0x3b ∧ line.head? ≠ some 0x5b)
    (hline : line.drop (indent line) = pre ++ 0x3d :: post) (hpre : 0x3d ∉ pre) :
    confParseLine sectionName (line ++ [0]) line.length =
      match sectionName with
      | none => .ok (none, none, line ++ [0])
      | some sec => do
        let (setting, line') ← parseAssignment sec (pre ++ 0x3d :: (post ++ [0])) pre.length
          (indent line + (pre.length + (1 + post.length)))
        return (some sec, some setting, (line ++ [0]).take (indent line) ++ line') := by
  have hlen : line.length = indent line + (pre.length + (1 + post.length)) := by
    have hdrop := congrArg List.length hline
    have hle := indent_le line
    rw [List.length_drop, List.length_append, List.length_cons] at hdrop
    omega
  have hfound : findByte 0x3d (pre ++ 0x3d :: (post ++ [0])) 0
      (indent line + (pre.length + (1 + post.length))) = .ok (some pre.length) := by
    have h := findByte_append_cons (n := indent line + (pre.length + (1 + post.length))) hpre
      (by omega) [] (post ++ [0])
    rw [List.length_nil, Nat.zero_add, List.nil_append] at h
    exact h
  rw [confParseLine_plain sectionName hplain, hline, hlen, List.append_assoc, List.cons_append,
    hfound,
    ok_bind]
  cases sectionName with
  | none => rfl
  | some sec => rfl

/-- A line without an equal sign sets nothing. -/
theorem confParseLine_weird (sectionName : Option Bytes)
    (hplain : line.head? ≠ some 0x23 ∧ line.head? ≠ some 0x3b ∧ line.head? ≠ some 0x5b)
    (hline : 0x3d ∉ line.drop (indent line)) :
    confParseLine sectionName (line ++ [0]) line.length =
      if indent line ≤ 1 then .ok (sectionName, none, line ++ [0]) else .error .outOfMap := by
  have hzero : (0x3d : UInt8) ∉ line.drop (indent line) ++ [0] := by simp [hline]
  have hlen : (line.drop (indent line) ++ [0]).length + indent line = line.length + 1 := by
    have hle := indent_le line
    rw [List.length_append, List.length_drop, List.length_singleton]
    omega
  rw [confParseLine_plain sectionName hplain]
  by_cases hk : indent line ≤ 1
  · rw [if_pos hk, findByte_none hzero (by omega)]
    rfl
  · rw [if_neg hk, findByte_error hzero (Nat.zero_le _) (by omega)]
    rfl

/-- **A line is parsed without what is behind it if it stays in the line.** Then the section is as
it should be. -/
theorem confParseLine_line (sectionName : Option Bytes) (line : Bytes) :
    (StaysInLine sectionName line → ∃ setting own,
      confParseLine sectionName (line ++ [0]) line.length =
        .ok (sectionAfter sectionName line, setting, own)) ∧
    (¬ StaysInLine sectionName line →
      confParseLine sectionName (line ++ [0]) line.length = .error .outOfMap) := by
  by_cases hcomment : line.head? = some 0x23 ∨ line.head? = some 0x3b
  · have hhead : line.head? ≠ some 0x5b := by
      intro h
      rw [h] at hcomment
      exact absurd hcomment (by decide)
    rw [sectionAfter_of_ne sectionName hhead,
      confParseLine_comment sectionName line.length hcomment]
    exact ⟨fun _ => ⟨_, _, rfl⟩, fun h => absurd (hcomment.elim .inl fun h => .inr (.inl h)) h⟩
  by_cases hheader : line.head? = some 0x5b
  · obtain ⟨name, rfl⟩ : ∃ name, line = 0x5b :: name := by
      cases line with
      | nil => exact nomatch hheader
      | cons c name => exact ⟨name, by rw [Option.some.inj hheader]⟩
    rw [confParseLine_header]
    exact ⟨fun _ => ⟨_, _, rfl⟩, fun h => absurd (.inr (.inr (.inl rfl))) h⟩
  obtain ⟨hhash, hsemi⟩ := not_or.mp hcomment
  have hplain := And.intro hhash (And.intro hsemi hheader)
  have hstays : StaysInLine sectionName line ↔
      indent line ≤ 1 ∨ sectionName = none ∧ 0x3d ∈ line.drop (indent line) := by
    unfold StaysInLine
    simp only [hhash, hsemi, hheader, false_or]
  rw [hstays, sectionAfter_of_ne sectionName hheader]
  by_cases hmem : (0x3d : UInt8) ∈ line.drop (indent line)
  · obtain ⟨pre, post, hline, hpre⟩ := List.eq_append_cons_of_mem hmem
    rw [confParseLine_equals sectionName hplain hline hpre]
    cases sectionName with
    | none => exact ⟨fun _ => ⟨_, _, rfl⟩, fun h => absurd (.inr ⟨rfl, hmem⟩) h⟩
    | some sec =>
      dsimp only
      by_cases hk : indent line ≤ 1
      · obtain ⟨own, hassign⟩ := parseAssignment_spec hk sec pre post
        rw [hassign]
        exact ⟨fun _ => ⟨_, _, rfl⟩, fun h => absurd (.inl hk) h⟩
      · rw [parseAssignment_error (not_le.mp hk)]
        refine ⟨fun h => ?_, fun _ => rfl⟩
        rcases h with h | ⟨h, -⟩
        · exact absurd h hk
        · exact nomatch h
  · rw [confParseLine_weird sectionName hplain hmem]
    constructor
    · rintro (h | ⟨-, h⟩)
      · exact ⟨none, _, if_pos h⟩
      · exact absurd h hmem
    · intro h
      exact if_neg fun hk => h (.inl hk)

end GitConfig

end Got

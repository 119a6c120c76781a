import Got.ObjectFile.ParseTree
import Got.PathTrim

/-!
# Which bytes are the content of a tree

The content of a tree is one entry after the other: a mode in octal digits, a space, a
name and a zero, and the bytes of an id. What is accepted is more, as the check of the
digits never fails: any bytes are taken for a mode, if there is at least one before the
first space. And it is less, as names are compared as paths, so that two names of which
one has slashes in front or at its end count as duplicates.

A reading of the bytes is a list of `RawEntry`, of which there is one at most
(`flatMap_bytes_inj`), and the bytes are accepted if there is one and no two of its names
are the same path (`gotObjectParseTree_eq_ok_iff`). From this `parsesRight_iff` tells the
bytes on which the parser is right: those with modes in octal digits, small enough for a
`mode_t`, and names that differ as paths; and all those which it has to reject and rejects,
be it for a reason of its own.

That nothing is read behind the end of the content is shown of a parser whose reads are
checked (`gotObjectParseTreeIn`), which does the same.
-/

namespace Got

namespace ObjectFile

/-! ## Reads that are checked -/

/-- `strnlen(3)`: the bytes before the first zero, of the first ones. -/
def strnlen : Bytes → ℕ → Except GotErr ℕ
  | _, 0 => .ok 0
  | [], _ + 1 => .error .outOfMap
  | c :: buf, maxlen + 1 =>
    if c = 0 then .ok 0
    else do
      let len ← strnlen buf maxlen
      return len + 1

/-- `memchr(3)` -/
def memchr (c : UInt8) : Bytes → ℕ → Except GotErr (Option ℕ)
  | _, 0 => .ok none
  | [], _ + 1 => .error .outOfMap
  | b :: buf, n + 1 =>
    if b = c then .ok (some 0)
    else do
      let i ← memchr c buf n
      return i.map (· + 1)

/-- Read some bytes. -/
def readBytes (buf : Bytes) (n : ℕ) : Except GotErr Bytes :=
  if n ≤ buf.length then .ok (buf.take n) else .error .outOfMap

/-- Read a string, as it is done to insert it in a list of paths. -/
def readString (buf : Bytes) : Except GotErr Str :=
  if 0 ∈ buf then .ok (cString buf) else .error .outOfMap

/-- `parse_tree_entry`, with `maxlen` bytes to read. -/
def parseTreeEntryIn (buf : Bytes) (maxlen : ℕ) : Except GotErr (ParsedTreeEntry × ℕ) := do
  let len ← strnlen buf maxlen
  let elen := len + 1
  if elen > maxlen then .error .badObjData
  else
    match ← memchr 0x20 buf elen with
    | none => .error .badObjData
    | some 0 => .error .badObjData
    | some space => do
      let digits ← readBytes buf space
      let mode ← parseMode digits 0
      if maxlen - elen < SHA1_DIGEST_LENGTH then .error .badObjData
      else
        let name ← readString (buf.drop (space + 1))
        let id ← readBytes (buf.drop elen) SHA1_DIGEST_LENGTH
        return (⟨mode, name, oidOf id⟩, elen + SHA1_DIGEST_LENGTH)

/-- The loop of `got_object_parse_tree`, with `remain` bytes to read. -/
def parseTreeEntriesIn : ℕ → Bytes → ℕ → List ParsedTreeEntry →
    Except GotErr (List ParsedTreeEntry)
  | _, _, 0, entries => .ok entries
  | 0, _, _ + 1, _ => .error .fuel
  | n + 1, buf, remain + 1, entries => do
    let (pte, elen) ← parseTreeEntryIn buf (remain + 1)
    match gotPathlistInsert ParsedTreeEntry.name entries pte with
    | none => .error .treeDupEntry
    | some entries => parseTreeEntriesIn n (buf.drop elen) (remain + 1 - elen) entries

/-- **`got_object_parse_tree`**, where it matters what is read. -/
def gotObjectParseTreeIn (buf : Bytes) (len : ℕ) : Except GotErr (List ParsedTreeEntry) :=
  parseTreeEntriesIn len buf len []

/-- The length of the first string in a buffer is what comes before its first NUL. -/
theorem strnlen_length (buf : Bytes) :
    strnlen buf buf.length = .ok (buf.takeWhile (· ≠ 0)).length := by
  induction buf with
  | nil => rfl
  | cons c buf ih =>
    rw [List.length_cons, strnlen, ih]
    by_cases hc : c = 0
    · rw [if_pos hc, List.takeWhile_cons_of_neg (by simpa using hc)]
      rfl
    · rw [if_neg hc, List.takeWhile_cons_of_pos (by simpa using hc)]
      rfl

/-- `memchr` answers the first occurrence within the length. -/
theorem memchr_eq {c : UInt8} {buf : Bytes} {n : ℕ} (hn : n ≤ buf.length) :
    memchr c buf n = .ok ((buf.take n).findIdx? (· = c)) := by
  induction n generalizing buf with
  | zero => cases buf <;> rfl
  | succ n ih =>
    cases buf with
    | nil => exact absurd hn (Nat.not_succ_le_zero n)
    | cons b buf =>
      rw [memchr, ih (Nat.le_of_succ_le_succ hn), List.take_succ_cons, List.findIdx?_cons]
      by_cases hb : b = c
      · rw [if_pos hb, if_pos (decide_eq_true hb)]
      · rw [if_neg hb, if_neg (by simpa using hb)]
        rfl

/-! ## The shape of an entry -/

/-- **What the beginning of some bytes can look like**: there is no zero, there is no space
before the first zero, or there is one. -/
inductive Shape : Bytes → Prop
  | noZero {buf : Bytes} (h : 0 ∉ buf) : Shape buf
  | noSpace (head rest : Bytes) (hzero : 0 ∉ head) (hspace : 0x20 ∉ head) :
      Shape (head ++ 0 :: rest)
  | entry (mode name rest : Bytes) (hzero : 0 ∉ mode) (hspace : 0x20 ∉ mode) (hname : 0 ∉ name) :
      Shape (mode ++ 0x20 :: (name ++ 0 :: rest))

/-- Every buffer has the shape of an entry or of one of the ways to miss it. -/
theorem shape (buf : Bytes) : Shape buf := by
  by_cases hzero : 0 ∈ buf
  · obtain ⟨head, rest, rfl, hhead⟩ := List.eq_append_cons_of_mem hzero
    by_cases hspace : 0x20 ∈ head
    · obtain ⟨mode, name, rfl, hmode⟩ := List.eq_append_cons_of_mem hspace
      rw [List.append_assoc, List.cons_append]
      exact .entry mode name rest (fun h => hhead (List.mem_append_left _ h)) hmode
        fun h => hhead (List.mem_append_right _ (List.mem_cons_of_mem _ h))
    · exact .noSpace head rest hhead hspace
  · exact .noZero hzero

/-- Nothing ends the entry. -/
theorem parseTreeEntry_of_noZero {buf : Bytes} (h : 0 ∉ buf) :
    parseTreeEntry buf = .error .badObjData
      ∧ parseTreeEntryIn buf buf.length = .error .badObjData := by
  have hlen : (buf.takeWhile (· ≠ 0)).length + 1 > buf.length := by
    rw [takeWhile_of_not_mem h]
    exact Nat.lt_succ_self _
  constructor
  · unfold parseTreeEntry
    exact if_pos hlen
  · unfold parseTreeEntryIn
    rw [strnlen_length, ok_bind]
    exact if_pos hlen

/-- The bytes up to the zero. -/
theorem take_head (head rest : Bytes) :
    (head ++ 0 :: rest).take (head.length + 1) = head ++ [0] := by
  rw [List.take_append, List.take_of_length_le (Nat.le_succ _), Nat.add_sub_cancel_left]
  rfl

/-- Nothing ends the mode. -/
theorem parseTreeEntry_of_noSpace {head rest : Bytes} (hzero : 0 ∉ head) (hspace : 0x20 ∉ head) :
    parseTreeEntry (head ++ 0 :: rest) = .error .badObjData
      ∧ parseTreeEntryIn (head ++ 0 :: rest) (head ++ 0 :: rest).length = .error .badObjData := by
  have hnone : (head ++ [0]).findIdx? (· = 0x20) = none := by
    rw [List.findIdx?_eq_none_iff]
    intro c hc
    refine decide_eq_false ?_
    rintro rfl
    rcases List.mem_append.mp hc with hc | hc
    · exact hspace hc
    · exact absurd hc (by decide)
  have hlen : ¬head.length + 1 > (head ++ 0 :: rest).length := by simp
  constructor
  · unfold parseTreeEntry
    rw [takeWhile_append_zero hzero, if_neg hlen, take_head, hnone]
  · unfold parseTreeEntryIn
    rw [strnlen_length, ok_bind, takeWhile_append_zero hzero]
    dsimp only
    rw [if_neg hlen, memchr_eq (Nat.le_of_not_lt hlen), take_head, hnone]
    rfl

/-- The name that some bytes are. -/
def nameOf (name : Bytes) : Str := name.map fun c => Char.ofNat c.toNat

/-- **What is read of an entry**, and how long it is. -/
theorem parseTreeEntry_of_entry {mode name rest : Bytes} (hzero : 0 ∉ mode) (hspace : 0x20 ∉ mode)
    (hname : 0 ∉ name) :
    parseTreeEntry (mode ++ 0x20 :: (name ++ 0 :: rest))
        = (if mode = [] then .error .badObjData
          else do
            let value ← parseMode mode 0
            if rest.length < SHA1_DIGEST_LENGTH then .error .badObjData
            else return (⟨value, nameOf name, oidOf (rest.take SHA1_DIGEST_LENGTH)⟩,
              mode.length + 1 + name.length + 1 + SHA1_DIGEST_LENGTH))
      ∧ parseTreeEntryIn (mode ++ 0x20 :: (name ++ 0 :: rest))
          (mode ++ 0x20 :: (name ++ 0 :: rest)).length
        = parseTreeEntry (mode ++ 0x20 :: (name ++ 0 :: rest)) := by
  generalize hbuf : mode ++ 0x20 :: (name ++ 0 :: rest) = buf
  have hhead : buf = (mode ++ 0x20 :: name) ++ 0 :: rest := by
    rw [← hbuf, List.append_assoc]
    rfl
  have hheadZero : 0 ∉ mode ++ 0x20 :: name := by
    rw [List.mem_append, List.mem_cons]
    rintro (h | h | h)
    · exact hzero h
    · exact absurd h (by decide)
    · exact hname h
  have hfind : ((mode ++ 0x20 :: name) ++ [0]).findIdx? (· = 0x20) = some mode.length := by
    rw [List.append_assoc, List.cons_append]
    exact findIdx?_append_cons
      (fun c hc => decide_eq_false fun h : c = 0x20 => hspace (h ▸ hc)) rfl _
  have hbefore : buf.takeWhile (· ≠ 0) = mode ++ 0x20 :: name := by
    rw [hhead, takeWhile_append_zero hheadZero]
  have htake : buf.take ((mode ++ 0x20 :: name).length + 1) = mode ++ 0x20 :: name ++ [0] := by
    rw [hhead, take_head]
  have hlen : ¬(mode ++ 0x20 :: name).length + 1 > buf.length := by
    have hle := congrArg List.length hhead
    rw [List.length_append, List.length_cons] at hle
    omega
  have hmode : buf.take mode.length = mode := by
    rw [← hbuf, List.take_left]
  have hnameDrop : buf.drop (mode.length + 1) = name ++ 0 :: rest := by
    rw [← hbuf, List.drop_append, List.drop_eq_nil_of_le (Nat.le_succ _), Nat.add_sub_cancel_left]
    rfl
  have hdrop : buf.drop ((mode ++ 0x20 :: name).length + 1) = rest := by
    rw [hhead, List.drop_append, List.drop_eq_nil_of_le (Nat.le_succ _), Nat.add_sub_cancel_left]
    rfl
  have hrest : buf.length - ((mode ++ 0x20 :: name).length + 1) = rest.length := by
    rw [← hdrop, List.length_drop]
  have hcstring : cString (name ++ 0 :: rest) = nameOf name := by
    rw [cString, takeWhile_append_zero hname, nameOf]
  have htotal : (mode ++ 0x20 :: name).length + 1 + SHA1_DIGEST_LENGTH
      = mode.length + 1 + name.length + 1 + SHA1_DIGEST_LENGTH := by
    rw [List.length_append, List.length_cons]
    omega
  have hread : parseTreeEntry buf
      = (if mode = [] then .error .badObjData
        else do
          let value ← parseMode mode 0
          if rest.length < SHA1_DIGEST_LENGTH then .error .badObjData
          else return (⟨value, nameOf name, oidOf (rest.take SHA1_DIGEST_LENGTH)⟩,
            mode.length + 1 + name.length + 1 + SHA1_DIGEST_LENGTH)) := by
    unfold parseTreeEntry
    rw [hbefore]
    dsimp only
    rw [if_neg hlen, htake, hfind, hrest, hdrop, htotal]
    cases mode with
    | nil => rfl
    | cons c mode =>
      rw [if_neg (List.cons_ne_nil c mode)]
      show (parseMode (buf.take (c :: mode).length) 0 >>= fun value =>
        if rest.length < SHA1_DIGEST_LENGTH then .error .badObjData
        else pure (ParsedTreeEntry.mk value (cString (buf.drop ((c :: mode).length + 1))) _, _)) = _
      rw [hmode, hnameDrop, hcstring]
  refine ⟨hread, hread ▸ ?_⟩
  unfold parseTreeEntryIn
  rw [strnlen_length, ok_bind, hbefore]
  dsimp only
  rw [if_neg hlen, memchr_eq (Nat.le_of_not_lt hlen), ok_bind, htake, hfind]
  cases mode with
  | nil => rfl
  | cons c mode =>
    have hreadMode : readBytes buf (mode.length + 1) = .ok (c :: mode) := by
      rw [readBytes, if_pos, ← List.length_cons, hmode]
      rw [← hbuf, List.length_append, List.length_cons]
      exact Nat.le_add_right _ _
    have hreadName : readString (buf.drop ((c :: mode).length + 1)) = .ok (nameOf name) := by
      rw [hnameDrop, readString, if_pos, hcstring]
      exact List.mem_append_right _ List.mem_cons_self
    rw [if_neg (List.cons_ne_nil c mode), hrest, hdrop, htotal]
    show (readBytes buf (mode.length + 1) >>= fun digits => parseMode digits 0 >>= _) = _
    rw [hreadMode, ok_bind]
    refine congrArg _ (funext fun value => ?_)
    rw [List.length_cons] at hreadName ⊢
    rw [hreadName]
    split
    · rfl
    next hid =>
      rw [readBytes, if_pos (Nat.le_of_not_lt hid)]
      rfl

/-- **Nothing is read behind the end**: the reads that are checked do not fail. -/
theorem parseTreeEntryIn_eq (buf : Bytes) :
    parseTreeEntryIn buf buf.length = parseTreeEntry buf := by
  cases shape buf with
  | noZero h => rw [(parseTreeEntry_of_noZero h).1, (parseTreeEntry_of_noZero h).2]
  | noSpace head rest hzero hspace =>
    rw [(parseTreeEntry_of_noSpace hzero hspace).1, (parseTreeEntry_of_noSpace hzero hspace).2]
  | entry mode name rest hzero hspace hname => exact (parseTreeEntry_of_entry hzero hspace hname).2

/-- Entries are read within the length as they are read to the end. -/
theorem parseTreeEntriesIn_eq (n : ℕ) (buf : Bytes) (entries : List ParsedTreeEntry) :
    parseTreeEntriesIn n buf buf.length entries = parseTreeEntries n buf entries := by
  induction n generalizing buf entries with
  | zero => cases buf <;> rfl
  | succ n ih =>
    cases buf with
    | nil => rfl
    | cons c buf =>
      rw [List.length_cons, parseTreeEntriesIn, parseTreeEntries, ← List.length_cons,
        parseTreeEntryIn_eq]
      refine congrArg _ (funext fun p => ?_)
      dsimp only
      cases gotPathlistInsert ParsedTreeEntry.name entries p.1 with
      | none => rfl
      | some entries =>
        rw [← List.length_drop]
        exact ih _ _

theorem gotObjectParseTreeIn_eq (buf : Bytes) :
    gotObjectParseTreeIn buf buf.length = gotObjectParseTree buf :=
  parseTreeEntriesIn_eq buf.length buf []

/-! ## Modes -/

/-- The mode that some bytes are taken for. -/
def modeOf (p : Bytes) (mode : UInt32) : UInt32 :=
  p.foldl (fun mode c => mode <<< 3 ||| UInt32.ofBitVec (BitVec.ofInt 32 (charInt c - 0x30))) mode

/-- **No byte is refused**: the check is for one that is both before and behind the digits. -/
theorem parseMode_eq (p : Bytes) (mode : UInt32) : parseMode p mode = .ok (modeOf p mode) := by
  induction p generalizing mode with
  | nil => rfl
  | cons c p ih =>
    rw [parseMode, if_neg (by omega), ih]
    rfl

/-- A digit of an octal number. -/
def IsOctal (c : UInt8) : Prop := 0x30 ≤ c ∧ c ≤ 0x37

instance (c : UInt8) : Decidable (IsOctal c) := inferInstanceAs (Decidable (_ ∧ _))

/-- **The number that octal digits stand for.** -/
def octal (p : Bytes) : ℕ := (Numeral.readNumber 8 p 0).1

/-- What an octal digit stands for. -/
theorem digitValue_of_isOctal {c : UInt8} (h : IsOctal c) :
    Numeral.digitValue 8 c = some (c.toNat - 48) ∧ c.toNat - 48 < 8
      ∧ (UInt32.ofBitVec (BitVec.ofInt 32 (charInt c - 0x30))).toNat = c.toNat - 48 := by
  obtain ⟨hle, hge⟩ := h
  have hle' : 48 ≤ c.toNat := UInt8.le_iff_toNat_le.mp hle
  have hge' : c.toNat ≤ 55 := UInt8.le_iff_toNat_le.mp hge
  have hnine : c ≤ 57 := UInt8.le_iff_toNat_le.mpr (hge'.trans (by decide))
  have hchar : charInt c = c.toNat :=
    if_pos (UInt8.lt_iff_toNat_lt.mpr (hge'.trans_lt (by decide)))
  refine ⟨?_, by omega, ?_⟩
  · unfold Numeral.digitValue
    have hin : 48 ≤ c ∧ c ≤ 57 := ⟨hle, hnine⟩
    simp only [if_pos hin, if_pos (show c.toNat - 48 < 8 by omega)]
  · rw [hchar]
    show (BitVec.ofInt 32 _).toNat = _
    rw [BitVec.toNat_ofInt]
    omega

/-- **A mode is read**, as far as there is room for it. -/
theorem toNat_modeOf {p : Bytes} (h : ∀ c ∈ p, IsOctal c) {mode : UInt32} {n : ℕ}
    (hmode : mode.toNat = n % 2 ^ 32) :
    (modeOf p mode).toNat = (Numeral.readNumber 8 p n).1 % 2 ^ 32 := by
  induction p generalizing mode n with
  | nil => exact hmode
  | cons c p ih =>
    obtain ⟨hdigit, hlt, hvalue⟩ := digitValue_of_isOctal (h c List.mem_cons_self)
    rw [Numeral.readNumber, hdigit]
    refine ih (fun c hc => h c (List.mem_cons_of_mem _ hc)) ?_
    have hshift : (mode <<< 3).toNat = 2 ^ 3 * (mode.toNat % 2 ^ 29) := by
      rw [UInt32.toNat_shiftLeft]
      show mode.toNat <<< 3 % 2 ^ 32 = _
      rw [Nat.shiftLeft_eq]
      omega
    rw [UInt32.toNat_or, hvalue, hshift, ← Nat.two_pow_add_eq_or_of_lt hlt, hmode]
    omega

/-! ## Readings -/

/-- **An entry that can be read**, whatever its mode is made of. -/
structure RawEntry where
  mode : Bytes
  name : CStr
  id : Sha1
  ne_nil : mode ≠ []
  noZero : 0 ∉ mode
  noSpace : 0x20 ∉ mode

namespace RawEntry

/-- The bytes of an entry. -/
def bytes (e : RawEntry) : Bytes := e.mode ++ 0x20 :: (e.name.val ++ 0 :: e.id.val)

/-- The path that the name of an entry is taken for. -/
def path (e : RawEntry) : Str := nameOf e.name.val

/-- What is read of an entry. -/
def parsed (e : RawEntry) : ParsedTreeEntry := ⟨modeOf e.mode 0, e.path, e.id⟩

theorem bytes_append (e : RawEntry) (rest : Bytes) :
    e.bytes ++ rest = e.mode ++ 0x20 :: (e.name.val ++ 0 :: (e.id.val ++ rest)) := by
  simp only [bytes, List.append_assoc, List.cons_append]

theorem length_bytes (e : RawEntry) :
    e.bytes.length = e.mode.length + 1 + e.name.val.length + 1 + SHA1_DIGEST_LENGTH := by
  have hid : e.id.val.length = SHA1_DIGEST_LENGTH := e.id.2
  simp only [bytes, List.length_append, List.length_cons, hid]
  omega

/-- **An entry that is there is read.** -/
theorem parseTreeEntry_bytes (e : RawEntry) (rest : Bytes) :
    parseTreeEntry (e.bytes ++ rest) = .ok (e.parsed, e.bytes.length) := by
  have hid : e.id.val.length = SHA1_DIGEST_LENGTH := e.id.2
  have hroom : ¬(e.id.val ++ rest).length < SHA1_DIGEST_LENGTH := by
    rw [List.length_append, hid]
    omega
  have hoid : oidOf e.id.val = e.id := record_sha1.dec_enc e.id
  rw [bytes_append, (parseTreeEntry_of_entry e.noZero e.noSpace e.name.2).1, if_neg e.ne_nil,
    parseMode_eq, ok_bind, if_neg hroom, List.take_left' hid, hoid, length_bytes]
  rfl

/-- **What is read is there.** -/
theorem exists_of_parseTreeEntry {buf : Bytes} {pte : ParsedTreeEntry} {elen : ℕ}
    (h : parseTreeEntry buf = .ok (pte, elen)) : ∃ (e : RawEntry) (rest : Bytes),
      buf = e.bytes ++ rest := by
  cases shape buf with
  | noZero hzero =>
    rw [(parseTreeEntry_of_noZero hzero).1] at h
    cases h
  | noSpace head rest hzero hspace =>
    rw [(parseTreeEntry_of_noSpace hzero hspace).1] at h
    cases h
  | entry mode name rest hzero hspace hname =>
    rw [(parseTreeEntry_of_entry hzero hspace hname).1, parseMode_eq, ok_bind] at h
    by_cases hmode : mode = []
    · rw [if_pos hmode] at h
      cases h
    by_cases hid : rest.length < SHA1_DIGEST_LENGTH
    · rw [if_neg hmode, if_pos hid] at h
      cases h
    refine ⟨⟨mode, ⟨name, hname⟩, ⟨rest.take SHA1_DIGEST_LENGTH, ?_⟩, hmode, hzero, hspace⟩,
      rest.drop SHA1_DIGEST_LENGTH, ?_⟩
    · exact List.length_take_of_le (Nat.le_of_not_lt hid)
    · rw [bytes_append, List.take_append_drop]

/-- Where an entry ends does not depend on what follows it. -/
theorem bytes_append_inj {e e' : RawEntry} {rest rest' : Bytes}
    (h : e.bytes ++ rest = e'.bytes ++ rest') : e = e' ∧ rest = rest' := by
  rw [bytes_append, bytes_append] at h
  obtain ⟨mode, ⟨name, hname⟩, ⟨id, hid⟩, hne, hzero, hspace⟩ := e
  obtain ⟨mode', ⟨name', hname'⟩, ⟨id', hid'⟩, hne', hzero', hspace'⟩ := e'
  obtain ⟨rfl, h⟩ := append_cons_inj hspace hspace' h
  obtain ⟨rfl, h⟩ := append_cons_inj hname hname' h
  obtain ⟨rfl, rfl⟩ := List.append_inj h (hid.trans hid'.symm)
  exact ⟨rfl, rfl⟩

theorem bytes_ne_nil (e : RawEntry) : e.bytes ≠ [] := by
  intro h
  have hlen := congrArg List.length h
  rw [length_bytes] at hlen
  cases hlen

/-- What follows an entry is shorter. -/
theorem length_rest (e : RawEntry) {rest : Bytes} {n : ℕ} (h : (e.bytes ++ rest).length ≤ n + 1) :
    rest.length ≤ n := by
  rw [List.length_append, length_bytes] at h
  omega

/-- **There is one reading** of some bytes at most. -/
theorem flatMap_bytes_inj {es es' : List RawEntry} (h : es.flatMap bytes = es'.flatMap bytes) :
    es = es' := by
  induction es generalizing es' with
  | nil =>
    cases es' with
    | nil => rfl
    | cons e' es' => exact absurd (List.append_eq_nil_iff.mp h.symm).1 e'.bytes_ne_nil
  | cons e es ih =>
    cases es' with
    | nil => exact absurd (List.append_eq_nil_iff.mp h).1 e.bytes_ne_nil
    | cons e' es' =>
      rw [List.flatMap_cons, List.flatMap_cons] at h
      obtain ⟨rfl, hrest⟩ := bytes_append_inj h
      rw [ih hrest]

end RawEntry

/-! ## What is accepted -/

/-- What the name of an entry is compared by. -/
def entryKey (pte : ParsedTreeEntry) : List ℕ := trimKey pte.name

theorem gotPathCmp_entryKey (pte pte' : ParsedTreeEntry) :
    gotPathCmp pte.name pte'.name = linCmp (entryKey pte) (entryKey pte') :=
  gotPathCmp_eq pte.name pte'.name

/-- The loop reads an entry and goes on. -/
theorem parseTreeEntries_bytes (n : ℕ) (e : RawEntry) (rest : Bytes) (list : List ParsedTreeEntry) :
    parseTreeEntries (n + 1) (e.bytes ++ rest) list
      = (gotPathlistInsert ParsedTreeEntry.name list e.parsed).elim (.error .treeDupEntry)
        (parseTreeEntries n rest) := by
  obtain ⟨c, buf, hbuf⟩ := List.exists_cons_of_ne_nil
    (fun h => e.bytes_ne_nil (List.append_eq_nil_iff.mp h).1 : e.bytes ++ rest ≠ [])
  rw [hbuf, parseTreeEntries, ← hbuf, RawEntry.parseTreeEntry_bytes, ok_bind]
  dsimp only
  rw [List.drop_left]
  cases gotPathlistInsert ParsedTreeEntry.name list e.parsed <;> rfl

/-- What the loop accepts begins with an entry. -/
theorem exists_of_parseTreeEntries {n : ℕ} {buf : Bytes} {list entries : List ParsedTreeEntry}
    (hne : buf ≠ []) (h : parseTreeEntries (n + 1) buf list = .ok entries) :
    ∃ (e : RawEntry) (rest : Bytes), buf = e.bytes ++ rest := by
  obtain ⟨c, buf, rfl⟩ := List.exists_cons_of_ne_nil hne
  rw [parseTreeEntries] at h
  obtain ⟨⟨pte, elen⟩, hentry, -⟩ := bind_eq_ok_iff.mp h
  exact RawEntry.exists_of_parseTreeEntry hentry

/-- Nothing is left to read. -/
theorem parseTreeEntries_nil_iff {list entries : List ParsedTreeEntry}
    (hs : InOrderOf entryKey list) (n : ℕ) :
    parseTreeEntries n [] list = .ok entries ↔ ∃ es : List RawEntry,
      [] = es.flatMap RawEntry.bytes ∧ entries.Perm (es.map RawEntry.parsed ++ list)
        ∧ InOrderOf entryKey entries := by
  have hread : parseTreeEntries n [] list = .ok list := by cases n <;> rfl
  rw [hread]
  constructor
  · intro h
    obtain rfl := Except.ok.inj h
    exact ⟨[], rfl, List.Perm.refl _, hs⟩
  · rintro ⟨es, hes, hperm, hsorted⟩
    obtain rfl := RawEntry.flatMap_bytes_inj (@Eq.trans _ ([].flatMap RawEntry.bytes) _ _ rfl hes)
    exact congrArg _ (hperm.eq_of_pairwise (fun _ _ _ _ hlt hgt => absurd hlt (lt_asymm hgt))
      hsorted hs).symm

/-- The loop accepts what there is a reading of, unless two names are the same path. -/
theorem parseTreeEntries_eq_ok_iff {n : ℕ} {buf : Bytes} {list entries : List ParsedTreeEntry}
    (hn : buf.length ≤ n) (hs : InOrderOf entryKey list) :
    parseTreeEntries n buf list = .ok entries ↔ ∃ es : List RawEntry,
      buf = es.flatMap RawEntry.bytes ∧ entries.Perm (es.map RawEntry.parsed ++ list)
        ∧ InOrderOf entryKey entries := by
  induction n generalizing buf list with
  | zero =>
    obtain rfl := List.eq_nil_of_length_eq_zero (Nat.le_zero.mp hn)
    exact parseTreeEntries_nil_iff hs 0
  | succ n ih =>
    constructor
    · intro h
      by_cases hnil : buf = []
      · exact (parseTreeEntries_nil_iff hs (n + 1)).mp (hnil ▸ h) |>.imp fun es hes => hnil ▸ hes
      obtain ⟨e, rest, rfl⟩ := exists_of_parseTreeEntries hnil h
      rw [parseTreeEntries_bytes] at h
      cases hins : gotPathlistInsert ParsedTreeEntry.name list e.parsed with
      | none =>
        rw [hins] at h
        cases h
      | some list₁ =>
        rw [hins] at h
        obtain ⟨hs₁, hperm₁⟩ := gotPathlistInsert_spec gotPathCmp_entryKey hs hins
        obtain ⟨es, rfl, hperm, hsorted⟩ := (ih (e.length_rest hn) hs₁).mp h
        exact ⟨e :: es, rfl, hperm.trans ((hperm₁.append_left _).trans List.perm_middle), hsorted⟩
    · rintro ⟨es, rfl, hperm, hsorted⟩
      cases es with
      | nil => exact (parseTreeEntries_nil_iff hs (n + 1)).mpr ⟨[], rfl, hperm, hsorted⟩
      | cons e es =>
        rw [List.flatMap_cons] at hn ⊢
        rw [parseTreeEntries_bytes]
        cases hins : gotPathlistInsert ParsedTreeEntry.name list e.parsed with
        | none =>
          -- the same path is there already
          obtain ⟨pte, hpte, heq⟩ := gotPathlistInsert_eq_none gotPathCmp_entryKey hins
          have hnodup := (hperm.map entryKey).nodup_iff.mp hsorted.nodup
          rw [List.map_cons, List.cons_append, List.map_cons, List.nodup_cons] at hnodup
          refine absurd ?_ hnodup.1
          rw [← heq]
          exact List.mem_map_of_mem (List.mem_append_right _ hpte)
        | some list₁ =>
          obtain ⟨hs₁, hperm₁⟩ := gotPathlistInsert_spec gotPathCmp_entryKey hs hins
          refine (ih (e.length_rest hn) hs₁).mpr ⟨es, rfl, hperm.trans ?_, hsorted⟩
          exact ((hperm₁.append_left _).trans List.perm_middle).symm

/-- **What is accepted**: the bytes of which there is a reading without two names that are
the same path. -/
theorem gotObjectParseTree_eq_ok_iff {buf : Bytes} {entries : List ParsedTreeEntry} :
    gotObjectParseTree buf = .ok entries ↔ ∃ es : List RawEntry,
      buf = es.flatMap RawEntry.bytes ∧ entries.Perm (es.map RawEntry.parsed)
        ∧ InOrderOf entryKey entries := by
  rw [gotObjectParseTree, parseTreeEntries_eq_ok_iff le_rfl List.Pairwise.nil]
  simp only [List.append_nil]

/-! ## When the parser is right -/

/-- **The content of a tree**: entries with modes in octal digits, and distinct names. -/
structure IsTree (buf : Bytes) (es : List RawEntry) : Prop where
  bytes : buf = es.flatMap RawEntry.bytes
  octal : ∀ e ∈ es, ∀ c ∈ e.mode, IsOctal c
  names : (es.map RawEntry.name).Nodup

/-- An entry is read as what it is. -/
structure Reads (e : RawEntry) (pte : ParsedTreeEntry) : Prop where
  mode : pte.mode.toNat = octal e.mode
  name : pte.name = e.path
  id : pte.id = e.id

/-- **The parser is right about some bytes**: it reads the entries of a tree and puts them in
order, rejects what is no tree, and does not read behind the end. -/
structure ParsesRight (buf : Bytes) : Prop where
  inside : gotObjectParseTreeIn buf buf.length ≠ .error .outOfMap
  accepts : ∀ es, IsTree buf es → ∃ entries sorted : List _,
    gotObjectParseTreeIn buf buf.length = .ok entries ∧ sorted.Perm es
      ∧ List.Forall₂ Reads sorted entries
      ∧ entries.Pairwise fun pte pte' => gotPathCmp pte.name pte'.name = .lt
  rejects : (∀ es, ¬IsTree buf es) → ∃ e, gotObjectParseTreeIn buf buf.length = .error e

/-- **No two names are the same path.** -/
def DistinctPaths (es : List RawEntry) : Prop :=
  es.Pairwise fun e e' => gotPathCmp e.path e'.path ≠ .eq

/-- Names are distinct as paths if their keys are. -/
theorem distinctPaths_iff {es : List RawEntry} :
    DistinctPaths es ↔ ((es.map RawEntry.parsed).map entryKey).Nodup := by
  rw [DistinctPaths, List.map_map, List.Nodup, List.pairwise_map]
  refine List.Pairwise.iff fun e e' => not_congr ?_
  rw [gotPathCmp_eq, linCmp_eq_eq_iff]
  rfl

/-- Things with distinct keys can be put in order. -/
theorem exists_inOrderOf {α β : Type} [LinearOrder β] {key : α → β} {list : List α}
    (h : (list.map key).Nodup) : ∃ list' : List α, list'.Perm list ∧ InOrderOf key list' := by
  have hperm := List.perm_insertionSort (fun x y => key x ≤ key y) list
  have htotal : Std.Total (fun x y : α => key x ≤ key y) := ⟨fun x y => le_total _ _⟩
  have htrans : IsTrans α (fun x y => key x ≤ key y) := ⟨fun x y z => le_trans⟩
  have hsorted := List.pairwise_insertionSort (fun x y : α => key x ≤ key y) list
  have hnodup := List.pairwise_map.mp ((hperm.map key).nodup_iff.mpr h)
  exact ⟨_, hperm, (hsorted.and hnodup).imp fun h => lt_of_le_of_ne h.1 h.2⟩

/-- **What is accepted, of a reading.** -/
theorem gotObjectParseTree_of_reading {buf : Bytes} {es : List RawEntry}
    (hbuf : buf = es.flatMap RawEntry.bytes) :
    (DistinctPaths es → ∃ sorted : List RawEntry, sorted.Perm es
        ∧ gotObjectParseTree buf = .ok (sorted.map RawEntry.parsed)
        ∧ InOrderOf entryKey (sorted.map RawEntry.parsed))
      ∧ (¬DistinctPaths es → ∃ e, gotObjectParseTree buf = .error e) := by
  constructor
  · intro hdistinct
    rw [distinctPaths_iff, List.map_map] at hdistinct
    obtain ⟨sorted, hperm, hsorted⟩ := exists_inOrderOf hdistinct
    have horder : InOrderOf entryKey (sorted.map RawEntry.parsed) := List.pairwise_map.mpr hsorted
    exact ⟨sorted, hperm,
      gotObjectParseTree_eq_ok_iff.mpr ⟨es, hbuf, hperm.map RawEntry.parsed, horder⟩, horder⟩
  · intro hdistinct
    cases hparse : gotObjectParseTree buf with
    | error e => exact ⟨e, rfl⟩
    | ok entries =>
      obtain ⟨es', hbuf', hperm, hsorted⟩ := gotObjectParseTree_eq_ok_iff.mp hparse
      obtain rfl := RawEntry.flatMap_bytes_inj (hbuf.symm.trans hbuf')
      refine absurd (distinctPaths_iff.mpr ?_) hdistinct
      exact (hperm.map entryKey).nodup_iff.mp hsorted.nodup

/-- Names that are distinct as paths are distinct. -/
theorem DistinctPaths.names {es : List RawEntry} (h : DistinctPaths es) :
    (es.map RawEntry.name).Nodup := by
  refine List.pairwise_map.mpr (h.imp fun hne heq => hne ?_)
  rw [RawEntry.path, RawEntry.path, heq, gotPathCmp_eq, linCmp_self]

/-- Entries are found by their paths. -/
theorem DistinctPaths.eq_of_path {es : List RawEntry} (h : DistinctPaths es) {e e' : RawEntry}
    (he : e ∈ es) (he' : e' ∈ es) (hpath : e.path = e'.path) : e = e' := by
  rw [distinctPaths_iff, List.map_map] at h
  refine List.inj_on_of_nodup_map h he he' ?_
  exact congrArg trimKey hpath

/-- **An entry is read as what it is** if there is room for its mode. -/
theorem reads_parsed_iff {e : RawEntry} (h : ∀ c ∈ e.mode, IsOctal c) :
    Reads e e.parsed ↔ octal e.mode < 2 ^ 32 := by
  have hmode : (modeOf e.mode 0).toNat = octal e.mode % 2 ^ 32 := toNat_modeOf h rfl
  constructor
  · intro hreads
    have heq : (modeOf e.mode 0).toNat = octal e.mode := hreads.mode
    rw [hmode] at heq
    exact heq ▸ Nat.mod_lt _ (by decide)
  · intro hlt
    exact ⟨hmode.trans (Nat.mod_eq_of_lt hlt), rfl, rfl⟩

/-- **The parser is right** about bytes of which there is no reading. If there is one, and its
names are distinct as paths, then the modes have to be octal, and fit in a `mode_t`. If they
are not distinct as paths then there has to be something else that is wrong. -/
theorem parsesRight_iff {buf : Bytes} :
    ParsesRight buf ↔ ∀ es, buf = es.flatMap RawEntry.bytes →
      (DistinctPaths es → ∀ e ∈ es, (∀ c ∈ e.mode, IsOctal c) ∧ octal e.mode < 2 ^ 32)
        ∧ (¬DistinctPaths es →
          ¬((∀ e ∈ es, ∀ c ∈ e.mode, IsOctal c) ∧ (es.map RawEntry.name).Nodup)) := by
  have hread := gotObjectParseTreeIn_eq buf
  constructor
  · rintro ⟨-, haccepts, hrejects⟩ es hbuf
    rw [hread] at haccepts hrejects
    obtain ⟨hok, herror⟩ := gotObjectParseTree_of_reading hbuf
    constructor
    · intro hdistinct
      obtain ⟨sorted, hperm, hparse, -⟩ := hok hdistinct
      -- what is accepted is a tree
      by_cases hno : ∀ es, ¬IsTree buf es
      · obtain ⟨e, he⟩ := hrejects hno
        rw [hparse] at he
        cases he
      obtain ⟨es', htree⟩ := not_forall_not.mp hno
      obtain rfl := RawEntry.flatMap_bytes_inj (hbuf.symm.trans htree.bytes)
      obtain ⟨entries, sorted', hparse', hperm', hreads, -⟩ := haccepts es htree
      obtain rfl := Except.ok.inj (hparse.symm.trans hparse')
      intro e he
      refine ⟨htree.octal e he, (reads_parsed_iff (htree.octal e he)).mp ?_⟩
      obtain ⟨i, rfl⟩ := List.get_of_mem (hperm'.mem_iff.mpr he)
      have hi : i.val < (sorted.map RawEntry.parsed).length := hreads.length_eq ▸ i.isLt
      have hone := hreads.get i.isLt hi
      obtain ⟨e', he', heq⟩ := List.mem_map.mp (List.get_mem (sorted.map RawEntry.parsed) ⟨i, hi⟩)
      rw [← heq] at hone
      rwa [hdistinct.eq_of_path (hperm.mem_iff.mp he') he hone.name] at hone
    · rintro hdistinct ⟨hoctal, hnames⟩
      obtain ⟨entries, -, hparse, -⟩ := haccepts es ⟨hbuf, hoctal, hnames⟩
      obtain ⟨e, he⟩ := herror hdistinct
      rw [hparse] at he
      cases he
  · intro h
    refine ⟨fun herr => ?_, fun es htree => ?_, fun hno => ?_⟩
    · rw [hread] at herr
      exact absurd (gotObjectParseTree_eq_error herr) (by decide)
    · obtain ⟨hfine, hdup⟩ := h es htree.bytes
      by_cases hdistinct : DistinctPaths es
      · obtain ⟨sorted, hperm, hparse, hsorted⟩ :=
          (gotObjectParseTree_of_reading htree.bytes).1 hdistinct
        refine ⟨_, sorted, hread.trans hparse, hperm, ?_, hsorted.imp fun hlt => ?_⟩
        · rw [List.forall₂_map_right_iff, List.forall₂_same]
          intro e he
          have he := hperm.mem_iff.mp he
          exact (reads_parsed_iff (htree.octal e he)).mpr (hfine hdistinct e he).2
        · rw [gotPathCmp_entryKey]
          exact linCmp_eq_lt_iff.mpr hlt
      · exact absurd ⟨htree.octal, htree.names⟩ (hdup hdistinct)
    · rw [hread]
      cases hparse : gotObjectParseTree buf with
      | error e => exact ⟨e, rfl⟩
      | ok entries =>
        obtain ⟨es, hbuf, -⟩ := gotObjectParseTree_eq_ok_iff.mp hparse
        obtain ⟨hfine, -⟩ := h es hbuf
        by_cases hdistinct : DistinctPaths es
        · exact absurd ⟨hbuf, fun e he => (hfine hdistinct e he).1, hdistinct.names⟩ (hno es)
        · obtain ⟨e, he⟩ := (gotObjectParseTree_of_reading hbuf).2 hdistinct
          rw [hparse] at he
          cases he

/-- An entry with a mode that is made of letters. -/
def lettersForMode : RawEntry where
  mode := [0x61, 0x62, 0x63]
  name := ⟨[0x78], by decide⟩
  id := ⟨List.replicate SHA1_DIGEST_LENGTH 0, length_zeros⟩
  ne_nil := by decide
  noZero := by decide
  noSpace := by decide

/-- A mode of letters is no mode of the format, and the parser takes it. -/
theorem lettersForMode_not_parsesRight : ¬ParsesRight lettersForMode.bytes := by
  rintro ⟨-, -, hrejects⟩
  have hread : gotObjectParseTreeIn lettersForMode.bytes lettersForMode.bytes.length
      = .ok [lettersForMode.parsed] := rfl
  obtain ⟨e, he⟩ := hrejects fun es htree => by
    have hone : [lettersForMode].flatMap RawEntry.bytes = lettersForMode.bytes :=
      List.append_nil _
    obtain rfl := RawEntry.flatMap_bytes_inj (hone.trans htree.bytes)
    exact absurd (htree.octal lettersForMode List.mem_cons_self) (by decide)
  rw [hread] at he
  cases he

end ObjectFile

end Got

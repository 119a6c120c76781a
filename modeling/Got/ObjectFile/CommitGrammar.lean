import Got.ObjectFile.Commit

/-!
# Which bytes are the content of a commit

The header of a commit is a line with its tree, a line for each of its parents, a line with
its author and one with its committer. Ids are hexadecimal digits, and a timezone is a sign
and four digits. The parser looks for less: the lines with people may be missing, a line
with an id may end with any byte, and a pair of digits is looked for one digit only, by a
function which takes a space or a sign for the first digit of an id. Also, a line can end
with a zero.

What the parser does not reject is given by `IsLoose`, which says what it looks for in place
of the grammar (`gotObjectParseCommitIn_eq_badObjData_iff`). It is right when that is the
grammar (`parsesRight_iff_isCommit_of_isLoose`): either the bytes are a commit, or the
parser rejects them.

A label is looked for where there may be less than its length left to read, and a timezone
is read behind its end if it is too short. Reads are checked for this
(`gotObjectParseCommitIn`), with the same result if nothing is read outside.
-/

namespace Got

open Numeral

namespace ObjectFile

namespace CommitGrammar

/-! ## Reads that are checked -/

/-- `strncmp(3)` with the length of a label that has no zero: does it begin here? -/
def strncmp : Bytes → Bytes → Except GotErr Bool
  | [], _ => .ok true
  | _ :: _, [] => .error .outOfMap
  | c :: label, b :: s => if b = c then strncmp label s else .ok false

/-- The loop over the parents. -/
def parseParentsIn : ℕ → Bytes → ℤ → Except GotErr (List Sha1 × Bytes × ℤ)
  | 0, _, _ => .error .fuel
  | n + 1, s, remain => do
    if ← strncmp GOT_COMMIT_LABEL_PARENT s then
      let (id, s, remain) ← parseIdLine GOT_COMMIT_LABEL_PARENT s remain
      let (ids, s, remain) ← parseParentsIn n s remain
      return (id :: ids, s, remain)
    else return ([], s, remain)

/-- A line with a person that can be missing. -/
def parsePerson (label s : Bytes) (remain : ℤ) : Except GotErr (Option Ident × Bytes × ℤ) := do
  if ← strncmp label s then
    let (ident, s, remain) ← parseIdentLine label s remain
    return (some ident, s, remain)
  else return (none, s, remain)

/-- **`got_object_parse_commit`**, where it matters what is read. -/
def gotObjectParseCommitIn (buf : Bytes) (len : ℕ) : Except GotErr Commit :=
  let remain : ℤ := len
  if remain = 0 then .error .badObjData
  else do
    if ← strncmp GOT_COMMIT_LABEL_TREE buf then
      let (treeId, s, remain) ← parseIdLine GOT_COMMIT_LABEL_TREE buf remain
      let (parentIds, s, remain) ← parseParentsIn (len + 1) s remain
      let (author, s, remain) ← parsePerson GOT_COMMIT_LABEL_AUTHOR s remain
      let (committer, s, remain) ← parsePerson GOT_COMMIT_LABEL_COMMITTER s remain
      return { treeId, parentIds, author, committer
               logmsg := (s.take remain.toNat).takeWhile (· ≠ 0) }
    else .error .badObjData

/-- A label that is there. -/
theorem strncmp_append (label s : Bytes) : strncmp label (label ++ s) = .ok true := by
  induction label with
  | nil => rfl
  | cons c label ih =>
    rw [List.cons_append, strncmp, if_pos rfl]
    exact ih

/-- **A label that is not there** is compared until the end of what can be read, at most. -/
theorem strncmp_of_absent {label s : Bytes} (h : ¬label <+: s) :
    strncmp label s = .ok false ∨ strncmp label s = .error .outOfMap ∧ s <+: label := by
  induction label generalizing s with
  | nil => exact absurd (List.nil_prefix) h
  | cons c label ih =>
    cases s with
    | nil => exact Or.inr ⟨rfl, List.nil_prefix⟩
    | cons b s =>
      rw [strncmp]
      by_cases hb : b = c
      · subst hb
        rw [if_pos rfl]
        rcases ih fun hpre => h ((List.prefix_cons_inj b).mpr hpre) with hfalse | ⟨herr, hpre⟩
        · exact Or.inl hfalse
        · exact Or.inr ⟨herr, (List.prefix_cons_inj b).mpr hpre⟩
      · rw [if_neg hb]
        exact Or.inl rfl

/-- A label of which only the beginning can be read. -/
theorem strncmp_of_short {label s : Bytes} (h : s <+: label) (hne : s ≠ label) :
    strncmp label s = .error .outOfMap := by
  induction label generalizing s with
  | nil => exact absurd (List.prefix_nil.mp h) hne
  | cons c label ih =>
    cases s with
    | nil => rfl
    | cons b s =>
      obtain ⟨rfl, hpre⟩ := List.cons_prefix_cons.mp h
      rw [strncmp, if_pos rfl]
      exact ih hpre fun heq => hne (congrArg _ heq)

/-- Of a comparison that can be made, the result is whether the label is there. -/
theorem strncmp_eq (label s : Bytes) :
    strncmp label s = .error .outOfMap ∨ strncmp label s = .ok (label.isPrefixOf s) := by
  induction label generalizing s with
  | nil => exact Or.inr rfl
  | cons c label ih =>
    cases s with
    | nil => exact Or.inl rfl
    | cons b s =>
      rw [strncmp, List.isPrefixOf]
      by_cases hb : b = c
      · subst hb
        rw [if_pos rfl, beq_self_eq_true, Bool.true_and]
        exact ih s
      · rw [if_neg hb, beq_eq_false_iff_ne.mpr (Ne.symm hb)]
        exact Or.inr rfl

/-- What is the same unless something is read outside is so for a sequence. -/
theorem bind_eq_or {α β : Type} {x y : Except GotErr α} {f g : α → Except GotErr β}
    (hx : x = .error .outOfMap ∨ x = y) (hf : ∀ v, f v = .error .outOfMap ∨ f v = g v) :
    (x >>= f) = .error .outOfMap ∨ (x >>= f) = (y >>= g) := by
  rcases hx with rfl | rfl
  · exact Or.inl rfl
  cases x with
  | error e => exact Or.inr rfl
  | ok v => exact hf v

/-- A branch that depends on a label. -/
theorem strncmp_bind_eq_or (label s : Bytes) {α : Type} {f : Bool → Except GotErr α}
    {x y : Except GotErr α} (htrue : f true = .error .outOfMap ∨ f true = x)
    (hfalse : f false = .error .outOfMap ∨ f false = y) :
    (strncmp label s >>= f) = .error .outOfMap
      ∨ (strncmp label s >>= f) = if label.isPrefixOf s then x else y := by
  rcases strncmp_eq label s with h | h
  · rw [h]
    exact Or.inl rfl
  rw [h, ok_bind]
  cases label.isPrefixOf s with
  | true => exact htrue
  | false => exact hfalse

/-- Parents are parsed within the length as they are without it, unless the parser leaves the text.
-/
theorem parseParentsIn_eq (n : ℕ) (s : Bytes) (remain : ℤ) :
    parseParentsIn n s remain = .error .outOfMap
      ∨ parseParentsIn n s remain = parseParents n s remain := by
  induction n generalizing s remain with
  | zero => exact Or.inr rfl
  | succ n ih =>
    refine strncmp_bind_eq_or _ s (bind_eq_or (Or.inr rfl) fun v => ?_) (Or.inr rfl)
    exact bind_eq_or (ih v.2.1 v.2.2) fun _ => Or.inr rfl

theorem parsePerson_eq (label s : Bytes) (remain : ℤ) :
    parsePerson label s remain = .error .outOfMap
      ∨ parsePerson label s remain = parseIdentLine? label s remain :=
  strncmp_bind_eq_or label s (Or.inr rfl) (Or.inr rfl)

/-- **Where reads are not checked** the same is read, if it is read inside. -/
theorem gotObjectParseCommitIn_eq (buf : Bytes) :
    gotObjectParseCommitIn buf buf.length = .error .outOfMap
      ∨ gotObjectParseCommitIn buf buf.length = gotObjectParseCommit buf := by
  unfold gotObjectParseCommitIn gotObjectParseCommit
  dsimp only
  by_cases hzero : (buf.length : ℤ) = 0
  · rw [if_pos hzero, if_pos hzero]
    exact Or.inr rfl
  rw [if_neg hzero, if_neg hzero, ite_not]
  refine strncmp_bind_eq_or _ buf (bind_eq_or (Or.inr rfl) fun v => ?_) (Or.inr rfl)
  refine bind_eq_or (parseParentsIn_eq _ v.2.1 v.2.2) fun v => ?_
  refine bind_eq_or (parsePerson_eq _ v.2.1 v.2.2) fun v => ?_
  exact bind_eq_or (parsePerson_eq _ v.2.1 v.2.2) fun _ => Or.inr rfl

/-! ## Lines with ids -/

/-- **A line with something that is taken for an id**, behind its label. -/
structure RawId where
  digits : Bytes
  last : UInt8
  id : Sha1
  length : digits.length = 40
  parse : gotParseSha1Digest digits = some id

/-- The bytes of a line. -/
def RawId.line (label : Bytes) (r : RawId) : Bytes := label ++ (r.digits ++ [r.last])

/-- No more than the digits is read for an id. -/
theorem parseDigest_append {n : ℕ} {digits : Bytes} (h : digits.length = 2 * n) (rest : Bytes) :
    parseDigest n (digits ++ rest) = parseDigest n digits := by
  induction n generalizing digits with
  | zero => rw [parseDigest, parseDigest]
  | succ n ih =>
    obtain ⟨a, digits, rfl⟩ := List.exists_cons_of_ne_nil
      (List.ne_nil_of_length_pos (by omega : 0 < digits.length))
    rw [List.length_cons] at h
    obtain ⟨b, digits, rfl⟩ := List.exists_cons_of_ne_nil
      (List.ne_nil_of_length_pos (by omega : 0 < digits.length))
    rw [List.length_cons] at h
    rw [List.cons_append, List.cons_append, parseDigest, parseDigest, ih (by omega)]

theorem gotParseSha1Digest_append {digits : Bytes} (h : digits.length = 40) (rest : Bytes) :
    gotParseSha1Digest (digits ++ rest) = gotParseSha1Digest digits := by
  rw [gotParseSha1Digest, gotParseSha1Digest, parseDigest_append h]

/-- **A line with an id is read.** -/
theorem parseIdLine_line (label : Bytes) (r : RawId) (rest : Bytes) :
    parseIdLine label (r.line label ++ rest) (r.line label ++ rest).length
      = .ok (r.id, rest, rest.length) := by
  have hline : r.line label ++ rest = label ++ (r.digits ++ r.last :: rest) := by
    simp only [RawId.line, List.append_assoc, List.cons_append, List.nil_append]
  have hdrop : (r.digits ++ r.last :: rest).drop SHA1_DIGEST_STRING_LENGTH = rest := by
    rw [← List.singleton_append, ← List.append_assoc]
    exact List.drop_left' (by rw [List.length_append, r.length]; rfl)
  have hlen : (((label ++ (r.digits ++ r.last :: rest)).length : ℕ) : ℤ) - label.length
      = SHA1_DIGEST_STRING_LENGTH + rest.length := by
    simp only [List.length_append, List.length_cons, r.length]
    rw [SHA1_DIGEST_STRING_LENGTH]
    omega
  rw [hline]
  unfold parseIdLine
  dsimp only
  rw [hlen, if_neg (by omega), List.drop_left, gotParseSha1Digest_append r.length, r.parse]
  dsimp only
  rw [hdrop, add_sub_cancel_left]

/-- **What is read is a line with an id**, and anything else is rejected. -/
theorem exists_rawId {label s : Bytes} (h : label <+: s) :
    (∃ (r : RawId) (rest : Bytes), s = r.line label ++ rest)
      ∨ parseIdLine label s s.length = .error .badObjData := by
  obtain ⟨s, rfl⟩ := h
  have hlen : (((label ++ s).length : ℕ) : ℤ) - label.length = s.length := by
    rw [List.length_append]
    omega
  by_cases hshort : (s.length : ℤ) < SHA1_DIGEST_STRING_LENGTH
  · right
    unfold parseIdLine
    dsimp only
    rw [hlen, if_pos hshort]
  have hstring : SHA1_DIGEST_STRING_LENGTH = 41 := rfl
  have htake : (s.take 40).length = 40 := List.length_take_of_le (by omega)
  cases hparse : gotParseSha1Digest (s.take 40) with
  | none =>
    right
    unfold parseIdLine
    dsimp only
    rw [hlen, if_neg hshort, List.drop_left, ← List.take_append_drop 40 s,
      gotParseSha1Digest_append htake, hparse]
  | some id =>
    left
    obtain ⟨last, rest, hrest⟩ := List.exists_cons_of_ne_nil
      (List.ne_nil_of_length_pos (by rw [List.length_drop]; omega : 0 < (s.drop 40).length))
    refine ⟨⟨s.take 40, last, id, htake, hparse⟩, rest, ?_⟩
    rw [RawId.line, List.append_assoc, List.append_assoc, List.singleton_append, ← hrest,
      List.take_append_drop]

/-- **The parents are read** up to a line of something else. -/
theorem parseParentsIn_lines {n : ℕ} {parents : List RawId} (hn : parents.length < n) {rest : Bytes}
    (hrest : ¬GOT_COMMIT_LABEL_PARENT <+: rest) :
    parseParentsIn n (parents.flatMap (RawId.line GOT_COMMIT_LABEL_PARENT) ++ rest)
        (parents.flatMap (RawId.line GOT_COMMIT_LABEL_PARENT) ++ rest).length
      = do
        let _ ← strncmp GOT_COMMIT_LABEL_PARENT rest
        return (parents.map RawId.id, rest, rest.length) := by
  induction parents generalizing n with
  | nil =>
    obtain ⟨n, rfl⟩ := Nat.exists_eq_succ_of_ne_zero (Nat.ne_of_gt hn)
    rw [List.flatMap_nil, List.nil_append, parseParentsIn]
    rcases strncmp_of_absent hrest with h | ⟨h, -⟩ <;> rw [h] <;> rfl
  | cons r parents ih =>
    obtain ⟨n, rfl⟩ := Nat.exists_eq_succ_of_ne_zero (Nat.ne_of_gt (Nat.zero_lt_of_lt hn))
    rw [List.flatMap_cons, List.append_assoc, parseParentsIn, RawId.line, List.append_assoc,
      strncmp_append, ok_bind, if_pos rfl, ← List.append_assoc, ← RawId.line, parseIdLine_line,
      ok_bind]
    dsimp only
    rw [ih (Nat.lt_of_succ_lt_succ hn)]
    rcases strncmp_of_absent hrest with h | ⟨h, -⟩ <;> rw [h] <;> rfl

/-- **There are lines with parents**, unless something is rejected. -/
theorem exists_parents {n : ℕ} {s : Bytes} (hn : s.length < n) :
    (∃ (parents : List RawId) (rest : Bytes), parents.length < n
        ∧ s = parents.flatMap (RawId.line GOT_COMMIT_LABEL_PARENT) ++ rest
        ∧ ¬GOT_COMMIT_LABEL_PARENT <+: rest)
      ∨ parseParentsIn n s s.length = .error .badObjData := by
  induction n generalizing s with
  | zero => exact absurd hn (Nat.not_lt_zero _)
  | succ n ih =>
    by_cases hlabel : GOT_COMMIT_LABEL_PARENT <+: s
    · have hcmp : strncmp GOT_COMMIT_LABEL_PARENT s = .ok true := by
        obtain ⟨rest, rfl⟩ := hlabel
        exact strncmp_append _ _
      rcases exists_rawId hlabel with ⟨r, rest, rfl⟩ | herr
      · have hlen : rest.length < n := by
          rw [List.length_append, RawId.line, List.length_append, List.length_append,
            r.length] at hn
          omega
        rcases ih hlen with ⟨parents, rest, hlt, rfl, hrest⟩ | herr
        · refine Or.inl ⟨r :: parents, rest, Nat.succ_lt_succ hlt, ?_, hrest⟩
          rw [List.flatMap_cons, List.append_assoc]
        · refine Or.inr ?_
          rw [parseParentsIn, hcmp, ok_bind, if_pos rfl, parseIdLine_line, ok_bind]
          dsimp only
          rw [herr]
          rfl
      · refine Or.inr ?_
        rw [parseParentsIn, hcmp, ok_bind, if_pos rfl, herr]
        rfl
    · exact Or.inl ⟨[], s, Nat.succ_pos n, rfl, hlabel⟩

/-! ## Timezones -/

/-- What a timezone begins with. -/
def IsSign (c : UInt8) : Prop := c = 0x2d ∨ c = 0x2b

/-- **What is taken for a timezone**: a sign, and digits, of which either one of the first two may
be something else, and of the next two, the last of which may be missing. -/
def IsLooseZone (tz : Bytes) : Prop :=
  ∃ sign a b c more, tz = sign :: a :: b :: c :: more ∧ IsSign sign ∧ (isdigit a ∨ isdigit b)
    ∧ (isdigit c ∨ ∃ d ∈ more.head?, isdigit d)

/-- **What a timezone is too short for**: something is read behind its end, before it is
rejected. -/
def IsShortZone (tz : Bytes) : Prop :=
  ∃ sign rest, tz = sign :: rest ∧ IsSign sign ∧ rest.length ≤ 2
    ∧ (rest = [] ∨ ∃ c ∈ rest, isdigit c)

/-- The offset that is read of the places of a timezone. -/
def offset (sign a b c d : UInt8) : ℤ :=
  (((charInt a - 0x30) * 10 + (charInt b - 0x30)) * 60 * 60
    + ((charInt c - 0x30) * 10 + (charInt d - 0x30)) * 60) * if sign = 0x2d then -1 else 1

theorem charAt_cons_zero (c : UInt8) (s : Bytes) : charAt (c :: s) 0 = .ok c :=
  if_pos (Nat.succ_pos s.length)

theorem charAt_cons_succ (c : UInt8) (s : Bytes) (i : ℕ) :
    charAt (c :: s) (i + 1) = charAt s i := by
  simp [charAt]

/-- **What is read of a timezone** behind its sign. -/
theorem parseGmtoff_sign {sign : UInt8} (h : IsSign sign) (rest : Bytes) :
    parseGmtoff (sign :: rest) = do
      let a ← charAt rest 0
      let b ← charAt rest 1
      if ¬isdigit a ∧ ¬isdigit b then .error .badObjData
      else
        let c ← charAt rest 2
        let d ← charAt rest 3
        if ¬isdigit c ∧ ¬isdigit d then .error .badObjData else return offset sign a b c d := by
  have hsign : ¬(sign ≠ 0x2d ∧ sign ≠ 0x2b) := fun hne => h.elim hne.1 hne.2
  unfold parseGmtoff
  rw [charAt_cons_zero, ok_bind, if_neg hsign]
  simp only [charAt_cons_succ]
  rfl

theorem parseGmtoff_places {sign : UInt8} (h : IsSign sign) (a b c : UInt8) (more : Bytes) :
    parseGmtoff (sign :: a :: b :: c :: more)
      = if ¬isdigit a ∧ ¬isdigit b then .error .badObjData
      else do
        let d ← charAt more 0
        if ¬isdigit c ∧ ¬isdigit d then .error .badObjData else return offset sign a b c d := by
  rw [parseGmtoff_sign h]
  simp only [charAt_cons_zero, charAt_cons_succ, ok_bind]

theorem parseGmtoff_of_not_isSign {sign : UInt8} (h : ¬IsSign sign) (rest : Bytes) :
    parseGmtoff (sign :: rest) = .error .badObjData := by
  unfold parseGmtoff
  rw [charAt_cons_zero, ok_bind, if_pos (not_or.mp h)]

/-- A time zone that is too short is read past its end. -/
theorem parseGmtoff_of_isShortZone {tz : Bytes} (h : IsShortZone tz) :
    parseGmtoff tz = .error .outOfMap := by
  obtain ⟨sign, rest, rfl, hsign, hlen, hrest⟩ := h
  rw [parseGmtoff_sign hsign]
  rcases rest with - | ⟨a, - | ⟨b, - | ⟨c, rest⟩⟩⟩
  · rfl
  · have ha : isdigit a := by simpa using hrest
    show (if ¬isdigit a ∧ ¬isdigit 0 then _ else _) = _
    rw [if_neg fun h => h.1 ha]
    rfl
  · have hab : isdigit a ∨ isdigit b := by simpa using hrest
    show (if ¬isdigit a ∧ ¬isdigit b then _ else _) = _
    rw [if_neg fun h => hab.elim h.1 h.2]
    rfl
  · simp only [List.length_cons] at hlen
    omega

/-- A time zone of five characters with a sign is accepted. -/
theorem parseGmtoff_of_isLooseZone {tz : Bytes} (h : IsLooseZone tz) :
    ∃ gmtoff, parseGmtoff tz = .ok gmtoff := by
  obtain ⟨sign, a, b, c, more, rfl, hsign, hab, hcd⟩ := h
  rw [parseGmtoff_places hsign, if_neg fun h => hab.elim h.1 h.2]
  cases more with
  | nil =>
    have hc : isdigit c := by simpa using hcd
    exact ⟨_, if_neg fun h => h.1 hc⟩
  | cons d more =>
    have hcd : isdigit c ∨ isdigit d := by simpa using hcd
    rw [charAt_cons_zero, ok_bind]
    exact ⟨_, if_neg fun h => hcd.elim h.1 h.2⟩

/-- Any other time zone is refused. -/
theorem parseGmtoff_of_not {tz : Bytes} (hshort : ¬IsShortZone tz) (hloose : ¬IsLooseZone tz) :
    parseGmtoff tz = .error .badObjData := by
  cases tz with
  | nil => rfl
  | cons sign rest =>
    by_cases hsign : IsSign sign
    · rcases rest with - | ⟨a, - | ⟨b, - | ⟨c, more⟩⟩⟩
      · exact absurd ⟨sign, [], rfl, hsign, Nat.zero_le 2, Or.inl rfl⟩ hshort
      · rw [parseGmtoff_sign hsign]
        refine if_pos ⟨fun ha => hshort ?_, by decide⟩
        exact ⟨sign, [a], rfl, hsign, Nat.le_succ 1, Or.inr ⟨a, List.mem_cons_self, ha⟩⟩
      · rw [parseGmtoff_sign hsign]
        refine if_pos ⟨fun ha => hshort ?_, fun hb => hshort ?_⟩
        · exact ⟨sign, [a, b], rfl, hsign, le_rfl, Or.inr ⟨a, List.mem_cons_self, ha⟩⟩
        · exact ⟨sign, [a, b], rfl, hsign, le_rfl,
            Or.inr ⟨b, List.mem_cons_of_mem _ List.mem_cons_self, hb⟩⟩
      · rw [parseGmtoff_places hsign]
        by_cases hab : ¬isdigit a ∧ ¬isdigit b
        · rw [if_pos hab]
        have hab' : isdigit a ∨ isdigit b := by tauto
        have hc : ¬isdigit c := fun hc =>
          hloose ⟨sign, a, b, c, more, rfl, hsign, hab', Or.inl hc⟩
        rw [if_neg hab]
        cases more with
        | nil => exact if_pos ⟨hc, by decide⟩
        | cons d more =>
          rw [charAt_cons_zero, ok_bind]
          exact if_pos ⟨hc, fun hd =>
            hloose ⟨sign, a, b, c, d :: more, rfl, hsign, hab', Or.inr ⟨d, rfl, hd⟩⟩⟩
    · exact parseGmtoff_of_not_isSign hsign rest

/-! ## Lines with people -/

/-- The string at the beginning of a line, which may end before the line. -/
def lineString (line : Bytes) : Bytes := line.takeWhile (· ≠ 0)

/-- **What is read behind a line**: if its string ends before the line then it is the end of the
line, which has a zero for its newline. -/
def behindLine (line rest : Bytes) : Bytes :=
  (line ++ 0 :: rest).drop ((lineString line).length + 1)

/-- **What is taken for a person and a time.** -/
def IsLooseTime (s : Bytes) : Prop :=
  ∃ name timestr tz, s = name ++ 0x20 :: (timestr ++ 0x20 :: tz) ∧ 0x20 ∉ timestr ∧ 0x20 ∉ tz
    ∧ (strtonum timestr 0 INT64_MAX).isSome ∧ IsLooseZone tz

/-- A time whose timezone is too short. -/
def IsShortTime (s : Bytes) : Prop :=
  ∃ before tz, s = before ++ 0x20 :: tz ∧ 0x20 ∉ tz ∧ IsShortZone tz

/-- A time that is too short is read past its end. -/
theorem parseCommitTime_of_isShortTime {s : Bytes} (h : IsShortTime s) :
    parseCommitTime s = .error .outOfMap := by
  obtain ⟨before, tz, rfl, htz, hshort⟩ := h
  rw [parseCommitTime, strrchr_append htz]
  dsimp only
  rw [parseGmtoff_of_isShortZone hshort]
  rfl

/-- A time of digits is accepted. -/
theorem parseCommitTime_of_isLooseTime {s : Bytes} (h : IsLooseTime s) :
    ∃ v, parseCommitTime s = .ok v := by
  obtain ⟨name, timestr, tz, rfl, htime, htz, hnum, hloose⟩ := h
  obtain ⟨gmtoff, hgmtoff⟩ := parseGmtoff_of_isLooseZone hloose
  obtain ⟨time, htime'⟩ := Option.isSome_iff_exists.mp hnum
  have hs : name ++ 0x20 :: (timestr ++ 0x20 :: tz) = (name ++ 0x20 :: timestr) ++ 0x20 :: tz := by
    rw [List.append_assoc]
    rfl
  rw [parseCommitTime, hs, strrchr_append htz]
  dsimp only
  rw [hgmtoff, ok_bind, strrchr_append htime]
  dsimp only
  rw [htime']
  exact ⟨_, rfl⟩

/-- Any other time is refused. -/
theorem parseCommitTime_of_not {s : Bytes} (hshort : ¬IsShortTime s) (hloose : ¬IsLooseTime s) :
    parseCommitTime s = .error .badObjData := by
  rcases exists_strrchr s 0x20 with ⟨-, hnone⟩ | ⟨before, tz, rfl, htz⟩
  · rw [parseCommitTime, hnone]
  rw [parseCommitTime, strrchr_append htz]
  dsimp only
  have hzone : ¬IsShortZone tz := fun h => hshort ⟨before, tz, rfl, htz, h⟩
  by_cases hlooseZone : IsLooseZone tz
  · obtain ⟨gmtoff, hgmtoff⟩ := parseGmtoff_of_isLooseZone hlooseZone
    rw [hgmtoff, ok_bind]
    rcases exists_strrchr before 0x20 with ⟨-, hnone⟩ | ⟨name, timestr, rfl, htime⟩
    · rw [hnone]
    rw [strrchr_append htime]
    dsimp only
    cases hnum : strtonum timestr 0 INT64_MAX with
    | none => rfl
    | some time =>
      refine absurd ⟨name, timestr, tz, ?_, htime, htz, by rw [hnum]; rfl, hlooseZone⟩ hloose
      rw [List.append_assoc]
      rfl
  · rw [parseGmtoff_of_not hzone hlooseZone]
    rfl

/-- **A line is cut off**, at its newline, and at the end of its string. -/
theorem parseLine_eq (label : Bytes) {line : Bytes} (hline : 0x0a ∉ line) (rest : Bytes) :
    parseLine label (label ++ (line ++ 0x0a :: rest)) (label ++ (line ++ 0x0a :: rest)).length
      = .ok (lineString line, behindLine line rest, (behindLine line rest).length) := by
  have hremain : (((label ++ (line ++ 0x0a :: rest)).length : ℕ) : ℤ) - label.length
      = ((line ++ 0x0a :: rest).length : ℤ) := by
    rw [@List.length_append _ label]
    omega
  have hfind : (line ++ 0x0a :: rest).findIdx? (· = 0x0a) = some line.length :=
    findIdx?_append_cons (fun a ha => decide_eq_false fun heq : a = 0x0a => hline (heq ▸ ha)) rfl
      rest
  have hset : (line ++ 0x0a :: rest).set line.length 0 = line ++ 0 :: rest := by
    rw [List.set_append_right _ _ le_rfl, Nat.sub_self]
    rfl
  have hstring : (line ++ 0 :: rest).takeWhile (· ≠ 0) = lineString line := by
    by_cases hzero : 0 ∈ line
    · obtain ⟨before, after, rfl, hbefore⟩ := List.eq_append_cons_of_mem hzero
      rw [lineString, takeWhile_append_zero hbefore, List.append_assoc, List.cons_append,
        takeWhile_append_zero hbefore]
    · rw [lineString, takeWhile_append_zero hzero, takeWhile_of_not_mem hzero]
  unfold parseLine
  dsimp only
  rw [hremain, if_neg (by simp only [List.length_append, List.length_cons]; omega), List.drop_left,
    Int.toNat_natCast, List.take_length, hfind]
  dsimp only
  rw [hset, hstring]
  have hle : (lineString line).length ≤ line.length := (List.takeWhile_prefix _).length_le
  have hbehind : (((line ++ 0x0a :: rest).length : ℕ) : ℤ) - ((lineString line).length + 1)
      = (behindLine line rest).length := by
    rw [behindLine, List.length_drop]
    simp only [List.length_append, List.length_cons]
    omega
  rw [hbehind]
  rfl

/-- A line that never ends is refused. -/
theorem parseLine_of_not_mem (label : Bytes) {s : Bytes} (h : 0x0a ∉ s) :
    parseLine label (label ++ s) (label ++ s).length = .error .badObjData := by
  have hremain : (((label ++ s).length : ℕ) : ℤ) - label.length = (s.length : ℤ) := by
    rw [List.length_append]
    omega
  have hnone : s.findIdx? (· = 0x0a) = none := by
    rw [List.findIdx?_eq_none_iff]
    exact fun c hc => decide_eq_false fun heq : c = 0x0a => h (heq ▸ hc)
  unfold parseLine
  dsimp only
  rw [hremain, List.drop_left, Int.toNat_natCast, List.take_length, hnone]
  exact ite_self _

/-- Nothing is read of a person who is missing, but for what may be the label. -/
theorem parsePerson_of_absent {label s : Bytes} (h : ¬label <+: s) (remain : ℤ) :
    parsePerson label s remain = do
      let _ ← strncmp label s
      return (none, s, remain) := by
  unfold parsePerson
  rcases strncmp_of_absent h with h | ⟨h, -⟩ <;> rw [h] <;> rfl

/-- **What is read of a person.** -/
theorem parsePerson_line (label : Bytes) {line : Bytes} (hline : 0x0a ∉ line) (rest : Bytes) :
    parsePerson label (label ++ (line ++ 0x0a :: rest)) (label ++ (line ++ 0x0a :: rest)).length
      = parseCommitTime (lineString line) >>= fun v =>
        .ok (some (Ident.mk v.2.2 v.1 v.2.1), behindLine line rest,
          ((behindLine line rest).length : ℤ)) := by
  unfold parsePerson
  rw [strncmp_append, ok_bind, if_pos rfl, parseIdentLine, parseLine_eq label hline, ok_bind]
  dsimp only
  cases parseCommitTime (lineString line) <;> rfl

theorem parsePerson_of_not_mem (label : Bytes) {s : Bytes} (h : 0x0a ∉ s) :
    parsePerson label (label ++ s) (label ++ s).length = .error .badObjData := by
  unfold parsePerson
  rw [strncmp_append, ok_bind, if_pos rfl, parseIdentLine, parseLine_of_not_mem label h]
  rfl

/-! ## What is not rejected -/

/-- **What is not rejected for a line with the committer**: the line may be missing. -/
def IsLooseCommitter (s : Bytes) : Prop :=
  ¬GOT_COMMIT_LABEL_COMMITTER <+: s
    ∨ ∃ line rest, s = GOT_COMMIT_LABEL_COMMITTER ++ (line ++ 0x0a :: rest) ∧ 0x0a ∉ line
      ∧ (IsShortTime (lineString line) ∨ IsLooseTime (lineString line))

/-- **What is not rejected for the lines with people**: either line may be missing. -/
def IsLoosePeople (s : Bytes) : Prop :=
  ¬GOT_COMMIT_LABEL_AUTHOR <+: s ∧ IsLooseCommitter s
    ∨ ∃ line rest, s = GOT_COMMIT_LABEL_AUTHOR ++ (line ++ 0x0a :: rest) ∧ 0x0a ∉ line
      ∧ (IsShortTime (lineString line)
        ∨ IsLooseTime (lineString line) ∧ IsLooseCommitter (behindLine line rest))

/-- **What is not rejected**: lines with ids and people, or what is too short to tell that it
does not begin with a label. -/
def IsLoose (buf : Bytes) : Prop :=
  buf ≠ [] ∧ buf ≠ GOT_COMMIT_LABEL_TREE ∧ buf <+: GOT_COMMIT_LABEL_TREE
    ∨ ∃ (tree : RawId) (parents : List RawId) (rest : Bytes), buf = tree.line GOT_COMMIT_LABEL_TREE
      ++ (parents.flatMap (RawId.line GOT_COMMIT_LABEL_PARENT) ++ rest)
      ∧ ¬GOT_COMMIT_LABEL_PARENT <+: rest ∧ IsLoosePeople rest

/-- What is the beginning of a label does not begin with another one. -/
theorem absent_of_short {a b s : Bytes} (hs : s <+: a) (hab : ¬b <+: a) : ¬b <+: s :=
  fun h => hab (h.trans hs)

/-- A line that begins with a label has a newline, or it is rejected. -/
theorem exists_line {label s : Bytes} (h : label <+: s) :
    (∃ line rest, s = label ++ (line ++ 0x0a :: rest) ∧ 0x0a ∉ line)
      ∨ (∃ line, s = label ++ line ∧ 0x0a ∉ line)
        ∧ parsePerson label s s.length = .error .badObjData := by
  obtain ⟨s, rfl⟩ := h
  by_cases hnl : 0x0a ∈ s
  · obtain ⟨line, rest, rfl, hline⟩ := List.eq_append_cons_of_mem hnl
    exact Or.inl ⟨line, rest, rfl, hline⟩
  · exact Or.inr ⟨⟨s, rfl, hnl⟩, parsePerson_of_not_mem label hnl⟩

/-- The committer line is refused exactly when it is no committer of the loose grammar. -/
theorem parsePerson_committer_iff {s : Bytes} :
    parsePerson GOT_COMMIT_LABEL_COMMITTER s s.length = .error .badObjData
      ↔ ¬IsLooseCommitter s := by
  constructor
  · rintro h (hnot | ⟨line, rest, rfl, hline, htime⟩)
    · rw [parsePerson_of_absent hnot] at h
      rcases strncmp_of_absent hnot with hcmp | ⟨hcmp, -⟩ <;> rw [hcmp] at h <;> cases h
    · rw [parsePerson_line _ hline] at h
      rcases htime with hshort | hloose
      · rw [parseCommitTime_of_isShortTime hshort] at h
        cases h
      · obtain ⟨v, hv⟩ := parseCommitTime_of_isLooseTime hloose
        rw [hv] at h
        cases h
  · intro h
    have hlabel : GOT_COMMIT_LABEL_COMMITTER <+: s := by
      by_contra hnot
      exact h (Or.inl hnot)
    rcases exists_line hlabel with ⟨line, rest, rfl, hline⟩ | ⟨-, herr⟩
    · have hshort : ¬IsShortTime (lineString line) := fun hs =>
        h (Or.inr ⟨line, rest, rfl, hline, Or.inl hs⟩)
      have hloose : ¬IsLooseTime (lineString line) := fun hl =>
        h (Or.inr ⟨line, rest, rfl, hline, Or.inr hl⟩)
      rw [parsePerson_line _ hline, parseCommitTime_of_not hshort hloose]
      rfl
    · exact herr

/-- The line with the committer is rejected, whatever is made of it. -/
theorem parseCommitter_iff {s : Bytes} (f : Option Ident → Bytes → ℤ → Commit) :
    (do
      let (committer, s, remain) ← parsePerson GOT_COMMIT_LABEL_COMMITTER s s.length
      return f committer s remain : Except GotErr Commit) = .error .badObjData
      ↔ ¬IsLooseCommitter s := by
  rw [← parsePerson_committer_iff]
  cases parsePerson GOT_COMMIT_LABEL_COMMITTER s s.length with
  | error e =>
    exact ⟨fun h => congrArg _ (Except.error.inj h), fun h => congrArg _ (Except.error.inj h)⟩
  | ok v => exact iff_of_false (fun h => by cases h) (fun h => by cases h)

/-- **The lines with people are rejected**, whatever is made of them. -/
theorem parsePeople_iff {s : Bytes} (f : Option Ident → Option Ident → Bytes → ℤ → Commit) :
    (do
      let (author, s, remain) ← parsePerson GOT_COMMIT_LABEL_AUTHOR s s.length
      let (committer, s, remain) ← parsePerson GOT_COMMIT_LABEL_COMMITTER s remain
      return f author committer s remain : Except GotErr Commit) = .error .badObjData
      ↔ ¬IsLoosePeople s := by
  by_cases hlabel : GOT_COMMIT_LABEL_AUTHOR <+: s
  · rcases exists_line hlabel with ⟨line, rest, rfl, hline⟩ | ⟨⟨s, rfl, hnl⟩, herr⟩
    · have hpeople : IsLoosePeople (GOT_COMMIT_LABEL_AUTHOR ++ (line ++ 0x0a :: rest))
          ↔ IsShortTime (lineString line)
            ∨ IsLooseTime (lineString line) ∧ IsLooseCommitter (behindLine line rest) := by
        constructor
        · rintro (⟨hnot, -⟩ | ⟨line', rest', heq, hline', h⟩)
          · exact absurd hlabel hnot
          · obtain ⟨rfl, rfl⟩ := append_cons_inj hline hline' (List.append_cancel_left heq)
            exact h
        · exact fun h => Or.inr ⟨line, rest, rfl, hline, h⟩
      rw [hpeople, parsePerson_line _ hline]
      by_cases hshort : IsShortTime (lineString line)
      · rw [parseCommitTime_of_isShortTime hshort]
        exact iff_of_false (fun h => by cases h) fun h => h (Or.inl hshort)
      by_cases hloose : IsLooseTime (lineString line)
      · obtain ⟨v, hv⟩ := parseCommitTime_of_isLooseTime hloose
        rw [hv, ok_bind, ok_bind]
        dsimp only
        rw [parseCommitter_iff, or_iff_right hshort, and_iff_right hloose]
      · rw [parseCommitTime_of_not hshort hloose]
        exact iff_of_true rfl fun h => h.elim hshort fun h => hloose h.1
    · rw [herr]
      refine iff_of_true rfl ?_
      rintro (⟨hnot, -⟩ | ⟨line, rest, heq, -⟩)
      · exact hnot hlabel
      · rw [List.append_cancel_left heq] at hnl
        exact hnl (List.mem_append_right _ List.mem_cons_self)
  · have hpeople : IsLoosePeople s ↔ IsLooseCommitter s := by
      constructor
      · rintro (⟨-, h⟩ | ⟨line, rest, rfl, -⟩)
        · exact h
        · exact absurd (List.prefix_append _ _) hlabel
      · exact fun h => Or.inl ⟨hlabel, h⟩
    rw [hpeople, parsePerson_of_absent hlabel]
    rcases strncmp_of_absent hlabel with hcmp | ⟨hcmp, hpre⟩
    · rw [hcmp, ok_bind]
      exact parseCommitter_iff _
    · -- what is left may be a label, and has no line with a committer
      rw [hcmp]
      refine iff_of_false (fun h => by cases h) fun h => h (Or.inl ?_)
      exact absent_of_short hpre (by decide)

theorem length_line (label : Bytes) (r : RawId) : (r.line label).length = label.length + 41 := by
  rw [RawId.line, List.length_append, List.length_append, r.length]
  rfl

/-- Parents take their room. -/
theorem length_parents_lt (label : Bytes) (parents : List RawId) (rest : Bytes) {n : ℕ}
    (h : (parents.flatMap (RawId.line label) ++ rest).length < n) : parents.length < n := by
  have hle : parents.length ≤ (parents.flatMap (RawId.line label)).length := by
    induction parents with
    | nil => exact Nat.zero_le _
    | cons r parents ih =>
      rw [List.flatMap_cons, List.append_assoc, List.length_append] at h
      have := ih (lt_of_le_of_lt (Nat.le_add_left _ _) h)
      rw [List.flatMap_cons, List.length_append, List.length_cons, length_line]
      omega
  rw [List.length_append] at h
  omega

/-- **What is made of the lines with people** behind those with ids. -/
theorem gotObjectParseCommitIn_lines (tree : RawId) (parents : List RawId) {rest : Bytes}
    (hrest : ¬GOT_COMMIT_LABEL_PARENT <+: rest) {buf : Bytes}
    (hbuf : buf = tree.line GOT_COMMIT_LABEL_TREE
      ++ (parents.flatMap (RawId.line GOT_COMMIT_LABEL_PARENT) ++ rest)) :
    gotObjectParseCommitIn buf buf.length
      = strncmp GOT_COMMIT_LABEL_PARENT rest >>= fun _ => do
        let (author, s, remain) ← parsePerson GOT_COMMIT_LABEL_AUTHOR rest rest.length
        let (committer, s, remain) ← parsePerson GOT_COMMIT_LABEL_COMMITTER s remain
        return ⟨tree.id, parents.map RawId.id, author, committer,
          (s.take remain.toNat).takeWhile (· ≠ 0)⟩ := by
  have hlen : buf.length = GOT_COMMIT_LABEL_TREE.length + 41
      + (parents.flatMap (RawId.line GOT_COMMIT_LABEL_PARENT) ++ rest).length := by
    rw [hbuf, List.length_append, length_line]
  have hcmp : strncmp GOT_COMMIT_LABEL_TREE buf = .ok true := by
    rw [hbuf, RawId.line, List.append_assoc]
    exact strncmp_append _ _
  have htree : parseIdLine GOT_COMMIT_LABEL_TREE buf buf.length
      = .ok (tree.id, parents.flatMap (RawId.line GOT_COMMIT_LABEL_PARENT) ++ rest,
        ((parents.flatMap (RawId.line GOT_COMMIT_LABEL_PARENT) ++ rest).length : ℤ)) := by
    rw [hbuf]
    exact parseIdLine_line _ _ _
  have hparents : parents.length < buf.length + 1 :=
    length_parents_lt GOT_COMMIT_LABEL_PARENT parents rest (by omega)
  unfold gotObjectParseCommitIn
  dsimp only
  rw [if_neg (by omega), hcmp, ok_bind, if_pos rfl, htree, ok_bind]
  dsimp only
  rw [parseParentsIn_lines hparents hrest]
  rcases strncmp_of_absent hrest with h | ⟨h, -⟩ <;> rw [h] <;> rfl

/-- What has no line with a tree is rejected, unless it is too short to tell. -/
theorem gotObjectParseCommitIn_of_absent {buf : Bytes} (hne : buf ≠ [])
    (h : ¬GOT_COMMIT_LABEL_TREE <+: buf) : gotObjectParseCommitIn buf buf.length
      = strncmp GOT_COMMIT_LABEL_TREE buf >>= fun _ => .error .badObjData := by
  have hpos := List.length_pos_of_ne_nil hne
  unfold gotObjectParseCommitIn
  dsimp only
  rw [if_neg (by omega)]
  rcases strncmp_of_absent h with hcmp | ⟨hcmp, -⟩ <;> rw [hcmp] <;> rfl

/-- What has a line with a tree, and what is rejected before that. -/
theorem exists_lines {buf : Bytes} (h : GOT_COMMIT_LABEL_TREE <+: buf) :
    (∃ (tree : RawId) (parents : List RawId) (rest : Bytes), buf = tree.line GOT_COMMIT_LABEL_TREE
        ++ (parents.flatMap (RawId.line GOT_COMMIT_LABEL_PARENT) ++ rest)
        ∧ ¬GOT_COMMIT_LABEL_PARENT <+: rest)
      ∨ gotObjectParseCommitIn buf buf.length = .error .badObjData := by
  have hlabel : GOT_COMMIT_LABEL_TREE.length = 5 := rfl
  have hpos : ¬((buf.length : ℤ) = 0) := by
    have := h.length_le
    omega
  have hcmp : strncmp GOT_COMMIT_LABEL_TREE buf = .ok true := by
    obtain ⟨rest, rfl⟩ := h
    exact strncmp_append _ _
  rcases exists_rawId h with ⟨tree, s, rfl⟩ | herr
  · have hlen : s.length < (tree.line GOT_COMMIT_LABEL_TREE ++ s).length + 1 := by
      rw [List.length_append]
      omega
    rcases exists_parents hlen with ⟨parents, rest, -, rfl, hrest⟩ | herr
    · exact Or.inl ⟨tree, parents, rest, rfl, hrest⟩
    · right
      unfold gotObjectParseCommitIn
      dsimp only
      rw [if_neg hpos, hcmp, ok_bind, if_pos rfl, parseIdLine_line, ok_bind]
      dsimp only
      rw [herr]
      rfl
  · right
    unfold gotObjectParseCommitIn
    dsimp only
    rw [if_neg hpos, hcmp, ok_bind, if_pos rfl, herr]
    rfl

/-- **What the parser rejects.** -/
theorem gotObjectParseCommitIn_eq_badObjData_iff {buf : Bytes} :
    gotObjectParseCommitIn buf buf.length = .error .badObjData ↔ ¬IsLoose buf := by
  have hlines : ∀ {tree parents rest}, buf = RawId.line GOT_COMMIT_LABEL_TREE tree
      ++ (List.flatMap (RawId.line GOT_COMMIT_LABEL_PARENT) parents ++ rest) →
      ¬GOT_COMMIT_LABEL_PARENT <+: rest →
      (gotObjectParseCommitIn buf buf.length = .error .badObjData ↔ ¬IsLoosePeople rest) := by
    intro tree parents rest hbuf hrest
    rw [gotObjectParseCommitIn_lines tree parents hrest hbuf]
    rcases strncmp_of_absent hrest with hcmp | ⟨hcmp, hpre⟩
    · rw [hcmp, ok_bind]
      exact parsePeople_iff fun author committer s remain =>
        ⟨tree.id, parents.map RawId.id, author, committer, (s.take remain.toNat).takeWhile (· ≠ 0)⟩
    · -- what is left may be the label of a parent, and has no lines with people
      rw [hcmp]
      refine iff_of_false (fun h => by cases h) fun h => h (Or.inl ?_)
      exact ⟨absent_of_short hpre (by decide), Or.inl (absent_of_short hpre (by decide))⟩
  constructor
  · rintro h (⟨hne, hnetree, hpre⟩ | ⟨tree, parents, rest, hbuf, hrest, hpeople⟩)
    · rw [gotObjectParseCommitIn_of_absent hne fun htree =>
        hnetree (hpre.eq_of_length_le htree.length_le), strncmp_of_short hpre hnetree] at h
      cases h
    · exact (hlines hbuf hrest).mp h hpeople
  · intro h
    by_cases htree : GOT_COMMIT_LABEL_TREE <+: buf
    · rcases exists_lines htree with ⟨tree, parents, rest, hbuf, hrest⟩ | herr
      · exact (hlines hbuf hrest).mpr fun hpeople =>
          h (Or.inr ⟨tree, parents, rest, hbuf, hrest, hpeople⟩)
      · exact herr
    · by_cases hne : buf = []
      · subst hne
        rfl
      rw [gotObjectParseCommitIn_of_absent hne htree]
      rcases strncmp_of_absent htree with hcmp | ⟨-, hpre⟩
      · rw [hcmp]
        rfl
      · refine absurd (Or.inl ⟨hne, ?_, hpre⟩) h
        rintro rfl
        exact htree (List.prefix_refl _)

/-! ## The grammar -/

/-- **A timezone**: a sign and four digits, for hours and minutes. -/
def IsZone (tz : Bytes) (gmtoff : ℤ) : Prop :=
  ∃ sign a b c d, tz = [sign, a, b, c, d] ∧ IsSign sign
    ∧ isdigit a ∧ isdigit b ∧ isdigit c ∧ isdigit d ∧ gmtoff = offset sign a b c d

/-- **A line with an id**: a label, hexadecimal digits, and a newline. -/
def IsIdLine (label : Bytes) (id : Sha1) (line : Bytes) : Prop :=
  ∃ digits, line = label ++ (digits ++ [0x0a]) ∧ digits.length = 40
    ∧ (∀ c ∈ digits, (digitValue 16 c).isSome) ∧ gotParseSha1Digest digits = some id

/-- **A line with a person**: a label, a name, a time and a timezone, and a newline. -/
def IsPersonLine (label : Bytes) (ident : Ident) (line : Bytes) : Prop :=
  ∃ timestr tz, line = label ++ (ident.name ++ 0x20 :: (timestr ++ 0x20 :: tz) ++ [0x0a])
    ∧ 0 ∉ ident.name ++ 0x20 :: (timestr ++ 0x20 :: tz)
    ∧ 0x0a ∉ ident.name ++ 0x20 :: (timestr ++ 0x20 :: tz)
    ∧ 0x20 ∉ timestr ∧ strtonum timestr 0 INT64_MAX = some ident.time ∧ IsZone tz ident.gmtoff

/-- **The content of a commit**: a line with its tree, lines with its parents, one with its author
and one with its committer, and a message. -/
def IsCommit (buf : Bytes) (commit : Commit) : Prop :=
  ∃ (tree : Bytes) (parents : List Bytes) (author committer rest : Bytes),
    buf = tree ++ (parents.flatten ++ (author ++ (committer ++ rest)))
    ∧ IsIdLine GOT_COMMIT_LABEL_TREE commit.treeId tree
    ∧ List.Forall₂ (IsIdLine GOT_COMMIT_LABEL_PARENT) commit.parentIds parents
    ∧ (∃ ident, commit.author = some ident ∧ IsPersonLine GOT_COMMIT_LABEL_AUTHOR ident author)
    ∧ (∃ ident, commit.committer = some ident
      ∧ IsPersonLine GOT_COMMIT_LABEL_COMMITTER ident committer)
    ∧ commit.logmsg = rest.takeWhile (· ≠ 0)

theorem isdigit_ne {c : UInt8} (h : isdigit c) : c ≠ 0x20 := by
  rintro rfl
  exact absurd h (by decide)

/-- A timezone is read. -/
theorem IsZone.parse {tz : Bytes} {gmtoff : ℤ} (h : IsZone tz gmtoff) :
    parseGmtoff tz = .ok gmtoff ∧ 0x20 ∉ tz := by
  obtain ⟨sign, a, b, c, d, rfl, hsign, ha, hb, hc, hd, rfl⟩ := h
  constructor
  · rw [parseGmtoff_places hsign, if_neg fun h => h.1 ha, charAt_cons_zero, ok_bind,
      if_neg fun h => h.1 hc]
    rfl
  · simp only [List.mem_cons, List.not_mem_nil, or_false, not_or]
    refine ⟨?_, (isdigit_ne ha).symm, (isdigit_ne hb).symm, (isdigit_ne hc).symm,
      (isdigit_ne hd).symm⟩
    rcases hsign with rfl | rfl <;> decide

/-- A line with an id is one that is read. -/
theorem IsIdLine.exists_rawId {label : Bytes} {id : Sha1} {line : Bytes}
    (h : IsIdLine label id line) :
    ∃ r : RawId, line = r.line label ∧ r.id = id := by
  obtain ⟨digits, rfl, hlen, -, hparse⟩ := h
  exact ⟨⟨digits, 0x0a, id, hlen, hparse⟩, rfl, rfl⟩

/-- Id lines in a row are the lines of as many ids. -/
theorem exists_rawIds {label : Bytes} {ids : List Sha1} {lines : List Bytes}
    (h : List.Forall₂ (IsIdLine label) ids lines) :
    ∃ parents : List RawId, lines.flatten = parents.flatMap (RawId.line label)
      ∧ parents.map RawId.id = ids := by
  induction h with
  | nil => exact ⟨[], rfl, rfl⟩
  | cons hline _ ih =>
    obtain ⟨r, rfl, rfl⟩ := hline.exists_rawId
    obtain ⟨parents, hlines, rfl⟩ := ih
    exact ⟨r :: parents, by rw [List.flatten_cons, List.flatMap_cons, hlines], rfl⟩

/-- **A line with a person is read.** -/
theorem IsPersonLine.parse {label : Bytes} {ident : Ident} {line : Bytes}
    (h : IsPersonLine label ident line) (rest : Bytes) :
    parsePerson label (line ++ rest) (line ++ rest).length
      = .ok (some ident, rest, rest.length) := by
  obtain ⟨timestr, tz, rfl, hzero, hnl, htime, hnum, hzone⟩ := h
  obtain ⟨hparse, htz⟩ := hzone.parse
  generalize htext : ident.name ++ 0x20 :: (timestr ++ 0x20 :: tz) = text at hzero hnl ⊢
  have hline : label ++ (text ++ [0x0a]) ++ rest = label ++ (text ++ 0x0a :: rest) := by
    rw [List.append_assoc, List.append_assoc]
    rfl
  have hstring : lineString text = text := takeWhile_of_not_mem hzero
  have hbehind : behindLine text rest = rest := by
    rw [behindLine, hstring, List.drop_append, List.drop_eq_nil_of_le (Nat.le_succ _),
      Nat.add_sub_cancel_left]
    rfl
  have hread : parseCommitTime text = .ok (ident.time, ident.gmtoff, ident.name) := by
    have hsplit : text = (ident.name ++ 0x20 :: timestr) ++ 0x20 :: tz := by
      rw [← htext, List.append_assoc]
      rfl
    rw [parseCommitTime, hsplit, strrchr_append htz]
    dsimp only
    rw [hparse, ok_bind, strrchr_append htime]
    dsimp only
    rw [hnum]
    rfl
  rw [hline, parsePerson_line label hnl, hstring, hread, ok_bind, hbehind]

/-- A line with a person begins with its label. -/
theorem IsPersonLine.exists_append {label : Bytes} {ident : Ident} {line : Bytes}
    (h : IsPersonLine label ident line) (rest : Bytes) : ∃ s, line ++ rest = label ++ s := by
  obtain ⟨timestr, tz, rfl, -⟩ := h
  exact ⟨_, List.append_assoc _ _ _⟩

/-- The author is no parent. -/
theorem strncmp_parent_author (s : Bytes) :
    strncmp GOT_COMMIT_LABEL_PARENT (GOT_COMMIT_LABEL_AUTHOR ++ s) = .ok false := rfl

/-- **A commit is read.** -/
theorem gotObjectParseCommitIn_of_isCommit {buf : Bytes} {commit : Commit}
    (h : IsCommit buf commit) :
    gotObjectParseCommitIn buf buf.length = .ok commit := by
  obtain ⟨treeId, parentIds, author?, committer?, logmsg⟩ := commit
  obtain ⟨treeLine, parentLines, authorLine, committerLine, rest, hbuf, htree, hparents,
    ⟨author, rfl, hauthor⟩, ⟨committer, rfl, hcommitter⟩, rfl⟩ := h
  obtain ⟨tree, rfl, rfl⟩ := htree.exists_rawId
  obtain ⟨parents, hlines, rfl⟩ := exists_rawIds hparents
  obtain ⟨s, hs⟩ := hauthor.exists_append (committerLine ++ rest)
  have hcmp : strncmp GOT_COMMIT_LABEL_PARENT (authorLine ++ (committerLine ++ rest))
      = .ok false := by
    rw [hs]
    exact strncmp_parent_author s
  have hrest : ¬GOT_COMMIT_LABEL_PARENT <+: authorLine ++ (committerLine ++ rest) := by
    rintro ⟨s, hs⟩
    rw [← hs, strncmp_append] at hcmp
    cases hcmp
  rw [hlines] at hbuf
  rw [gotObjectParseCommitIn_lines tree parents hrest hbuf, hcmp, ok_bind, hauthor.parse, ok_bind]
  dsimp only
  rw [hcommitter.parse, ok_bind]
  dsimp only
  rw [Int.toNat_natCast, List.take_length]
  rfl

/-! ## When the parser is right -/

/-- **The parser is right about some bytes**: it reads nothing outside of them, accepts them only
as what they are, and rejects them if they are no commit. -/
structure ParsesRight (buf : Bytes) : Prop where
  inside : gotObjectParseCommitIn buf buf.length ≠ .error .outOfMap
  accepts : ∀ commit, gotObjectParseCommitIn buf buf.length = .ok commit → IsCommit buf commit
  rejects : (∀ commit, ¬IsCommit buf commit) →
    gotObjectParseCommitIn buf buf.length = .error .badObjData

/-- **The parser is right** about bytes that are a commit, or are not even what it looks for in
place of one. -/
theorem parsesRight_iff_isCommit_of_isLoose {buf : Bytes} :
    ParsesRight buf ↔ (IsLoose buf → ∃ commit, IsCommit buf commit) := by
  constructor
  · intro h hloose
    by_contra hno
    exact gotObjectParseCommitIn_eq_badObjData_iff.mp (h.rejects (not_exists.mp hno)) hloose
  · intro h
    have hread : gotObjectParseCommitIn buf buf.length = .error .badObjData
        ∨ ∃ commit, IsCommit buf commit ∧ gotObjectParseCommitIn buf buf.length = .ok commit := by
      by_cases hloose : IsLoose buf
      · obtain ⟨commit, hcommit⟩ := h hloose
        exact Or.inr ⟨commit, hcommit, gotObjectParseCommitIn_of_isCommit hcommit⟩
      · exact Or.inl (gotObjectParseCommitIn_eq_badObjData_iff.mpr hloose)
    rcases hread with herr | ⟨commit, hcommit, hok⟩
    · refine ⟨fun hout => ?_, fun commit hok => ?_, fun _ => herr⟩
      · rw [herr] at hout
        cases hout
      · rw [herr] at hok
        cases hok
    · refine ⟨fun herr => ?_, fun commit' hok' => ?_, fun hno => absurd hcommit (hno commit)⟩
      · rw [hok] at herr
        cases herr
      · obtain rfl := Except.ok.inj (hok.symm.trans hok')
        exact hcommit

/-- A commit without an author and a committer. -/
def withoutPeople : Bytes := text "tree abababababababababababababababababababab\n\nm\n"

/-- A commit without an author is not parsed as it should be. -/
theorem withoutPeople_not_parsesRight : ¬ParsesRight withoutPeople := by
  rintro ⟨-, haccepts, -⟩
  have hread : gotObjectParseCommitIn withoutPeople withoutPeople.length
      = .ok ⟨someId, [], none, none, text "\nm\n"⟩ := rfl
  obtain ⟨-, -, -, -, -, -, -, -, ⟨ident, hauthor, -⟩, -⟩ := haccepts _ hread
  cases hauthor

end CommitGrammar

end ObjectFile

end Got

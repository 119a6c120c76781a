import Mathlib.Data.UInt
import Got.Reference.Store

/-!
# Opening references

What is found of a reference in a store, first among the files and then in `packed-refs`.

An absolute name is looked for under that name only. A name without a directory may match in
several of them. Then the files are searched in the order of the directories, and the lines of
`packed-refs` in the order of the file.
-/

namespace Got

namespace RefStore

open Lines ObjectFile

variable {store : RefStore} {ref : DiskRef} {refname : Bytes}

/-! ## Files -/

/-- A file that is missing is no error. -/
def looseOf : Except GotErr (Option DiskRef) → Except GotErr (Option DiskRef)
  | .error .notRef => .ok none
  | result => result

/-- The next directory is only tried if there is nothing in this one. -/
theorem openLoose_cons (store : RefStore) (pathRefs refname subdir : Bytes) (rest : List Bytes) :
    store.openLoose pathRefs refname (subdir :: rest) =
      (looseOf (store.openRef pathRefs subdir refname) >>= fun
        | some ref => .ok (some ref)
        | none => store.openLoose pathRefs refname rest) := by
  rw [openLoose]
  cases store.openRef pathRefs subdir refname with
  | error e => cases e <;> rfl
  | ok found => cases found <;> rfl

/-- **A reference whose name is absolute** is in one place. -/
theorem openRef_absolute (h : isAbsolute refname) (store : RefStore) (pathRefs subdir : Bytes) :
    store.openRef pathRefs subdir refname =
      store.parseRefFile refname (pathRefs ++ 0x2f :: refname) := by
  unfold openRef
  rw [if_pos (Or.inl h)]

theorem not_isWellKnownRef_of_isAbsolute (h : isAbsolute refname) :
    isWellKnownRef refname = false := by
  refine Bool.eq_false_iff.mpr fun hknown => ?_
  rcases of_decide_eq_true hknown with rfl | rfl | rfl | rfl <;> exact absurd h (by decide)

/-- An absolute name is looked for in its own file only. -/
theorem openLoose_absolute (h : isAbsolute refname) (store : RefStore) :
    store.openLoose (getRefsDirPath refname) refname subdirs =
      looseOf (store.parseRefFile refname (0x2f :: refname)) := by
  have hdir : getRefsDirPath refname = [] := if_pos (Or.inr h)
  have hopen : ∀ subdir, store.openRef [] subdir refname =
      store.parseRefFile refname (0x2f :: refname) := store.openRef_absolute h []
  rw [hdir]
  unfold subdirs
  rw [openLoose_cons, openLoose_cons, openLoose_cons, hopen, hopen, hopen]
  cases looseOf (store.parseRefFile refname (0x2f :: refname)) with
  | error e => rfl
  | ok found => cases found <;> rfl

/-! ## Lines of `packed-refs` -/

/-- **The references in the lines of `packed-refs`.** -/
def readPacked : List Bytes → Except GotErr (List DiskRef)
  | [] => .ok []
  | line :: rest => do
    match ← parsePackedRefLine none (lineBuffer line) with
    | none => readPacked rest
    | some ref => return ref :: (← readPacked rest)

/-- A line is the reference that is looked for if it has its name. -/
theorem parsePackedRefLine_some (absname line : Bytes) :
    parsePackedRefLine (some absname) line =
      (parsePackedRefLine none line).map (Option.filter (·.name = absname)) := by
  unfold parsePackedRefLine
  split
  · rfl
  · split
    · rfl
    · cases stringAt line SHA1_DIGEST_STRING_LENGTH with
      | error e => rfl
      | ok name =>
        by_cases hname : name = absname
        · simp [hname, Except.map, Option.filter]
        · simp [hname, Except.map, Option.filter]

/-- What a line has in it. -/
theorem parsePackedRefLine_none {line : Bytes} (h : parsePackedRefLine none line = .ok (some ref)) :
    ∃ id, ref = ⟨ref.name, .oid id, true⟩
      ∧ stringAt line SHA1_DIGEST_STRING_LENGTH = .ok ref.name := by
  unfold parsePackedRefLine at h
  split at h
  · cases h
  · split at h
    · cases h
    · next id _ =>
      obtain ⟨name, hname, h⟩ := bind_eq_ok_iff.mp h
      cases h
      exact ⟨id, rfl, hname⟩

/-- A line of `packed-refs` is no symbolic reference. -/
theorem openPackedLine_packed {line : Bytes} {dirs : List Bytes}
    (h : openPackedLine refname line dirs = .ok (some ref)) :
    ∃ id, ref = ⟨ref.name, .oid id, true⟩ := by
  induction dirs with
  | nil => cases h
  | cons subdir rest ih =>
    obtain ⟨found, hparse, h⟩ := bind_eq_ok_iff.mp h
    cases found with
    | none => exact ih h
    | some found =>
      cases h
      rw [parsePackedRefLine_some] at hparse
      obtain ⟨found, hline, hfilter⟩ := Records.map_eq_ok_iff.mp hparse
      obtain ⟨rfl, -⟩ := Option.filter_eq_some_iff.mp hfilter
      obtain ⟨id, hid, -⟩ := parsePackedRefLine_none hline
      exact ⟨id, hid⟩

/-- What is found among the packed references is packed, and names an id. -/
theorem openPackedRef_packed {ls : List Bytes} (h : openPackedRef refname ls = .ok (some ref)) :
    ∃ id, ref = ⟨ref.name, .oid id, true⟩ := by
  induction ls with
  | nil => cases h
  | cons line rest ih =>
    obtain ⟨found, hline, h⟩ := bind_eq_ok_iff.mp h
    cases found with
    | none => exact ih h
    | some found =>
      cases h
      exact openPackedLine_packed hline

/-- The names under which a reference may be found. -/
def candidates (refname : Bytes) : List Bytes := subdirs.map (absRefname · refname)

/-- An absolute name is a candidate for itself only. -/
theorem mem_candidates_absolute (h : isAbsolute refname) {name : Bytes} :
    name ∈ candidates refname ↔ name = refname := by
  have hname : ∀ subdir, absRefname subdir refname = refname := fun _ => if_pos h
  unfold candidates subdirs
  rw [List.map_cons, List.map_cons, List.map_cons, hname, hname, hname]
  simp

/-- A line is compared with all candidates. -/
theorem openPackedLine_of_parse {line : Bytes} {found : Option DiskRef}
    (h : parsePackedRefLine none line = .ok found) (refname : Bytes) (dirs : List Bytes) :
    openPackedLine refname line dirs =
      .ok (found.filter (·.name ∈ dirs.map (absRefname · refname))) := by
  induction dirs with
  | nil => cases found <;> rfl
  | cons subdir rest ih =>
    have hline : parsePackedRefLine (some (absRefname subdir refname)) line =
        .ok (found.filter (·.name = absRefname subdir refname)) := by
      rw [parsePackedRefLine_some, h]
      rfl
    rw [openPackedLine, hline, ok_bind]
    cases found with
    | none => exact ih
    | some ref =>
      by_cases hname : ref.name = absRefname subdir refname
      · simp [Option.filter, hname, pure, Except.pure]
      · simp only [Option.filter, hname, decide_false, Bool.false_eq_true, if_false, List.map_cons,
          List.mem_cons, false_or]
        exact ih

/-- **The first line that has the name of a candidate is found.** -/
theorem openPackedRef_of_readPacked {ls : List Bytes} {refs : List DiskRef}
    (h : readPacked ls = .ok refs) (refname : Bytes) :
    openPackedRef refname ls = .ok (refs.find? (·.name ∈ candidates refname)) := by
  induction ls generalizing refs with
  | nil =>
    obtain rfl := Except.ok.inj h
    rfl
  | cons line rest ih =>
    obtain ⟨found, hline, h⟩ := bind_eq_ok_iff.mp h
    rw [openPackedRef, openPackedLine_of_parse hline, ok_bind]
    cases found with
    | none => exact ih h
    | some ref =>
      obtain ⟨refs', hrest, h⟩ := bind_eq_ok_iff.mp h
      obtain rfl := Except.ok.inj h
      by_cases hname : ref.name ∈ candidates refname
      · rw [List.find?_cons_of_pos (by simpa using hname)]
        have hsome : (some ref).filter (·.name ∈ subdirs.map (absRefname · refname)) = some ref :=
          if_pos (decide_eq_true hname)
        rw [hsome]
        rfl
      · rw [List.find?_cons_of_neg (by simpa using hname)]
        have hnone : (some ref).filter (·.name ∈ subdirs.map (absRefname · refname)) = none :=
          if_neg fun hmem => hname (of_decide_eq_true hmem)
        rw [hnone]
        exact ih hrest

/-- A reference which was read is in some line. -/
theorem exists_line_of_readPacked {ls : List Bytes} {refs : List DiskRef}
    (h : readPacked ls = .ok refs) (href : ref ∈ refs) :
    ∃ line ∈ ls, parsePackedRefLine none (lineBuffer line) = .ok (some ref) := by
  induction ls generalizing refs with
  | nil =>
    obtain rfl := Except.ok.inj h
    exact absurd href List.not_mem_nil
  | cons line rest ih =>
    obtain ⟨found, hline, h⟩ := bind_eq_ok_iff.mp h
    cases found with
    | none =>
      obtain ⟨line', hmem, hline'⟩ := ih h href
      exact ⟨line', List.mem_cons_of_mem _ hmem, hline'⟩
    | some ref' =>
      obtain ⟨refs', hrest, h⟩ := bind_eq_ok_iff.mp h
      obtain rfl := Except.ok.inj h
      rcases List.mem_cons.mp href with rfl | href
      · exact ⟨line, List.mem_cons_self, hline⟩
      · obtain ⟨line', hmem, hline'⟩ := ih hrest href
        exact ⟨line', List.mem_cons_of_mem _ hmem, hline'⟩

/-- A line has a reference with an object in it. -/
theorem mem_readPacked {ls : List Bytes} {refs : List DiskRef} (h : readPacked ls = .ok refs)
    (href : ref ∈ refs) : ∃ id, ref = ⟨ref.name, .oid id, true⟩ := by
  obtain ⟨line, -, hline⟩ := exists_line_of_readPacked h href
  obtain ⟨id, hid, -⟩ := parsePackedRefLine_none hline
  exact ⟨id, hid⟩

/-! ## The text of a line -/

theorem digit_bytes : ∀ n < 16, Numeral.digit n ∉ [0, 0x0a, 0x23, 0x5e, 0x72] := by decide

/-- The digits of an id are none of the characters that end or mark a line. -/
theorem gotSha1DigestToStr_bytes (id : Sha1) :
    ∀ c ∈ gotSha1DigestToStr id, c ∉ [0, 0x0a, 0x23, 0x5e, 0x72] := by
  intro c hc
  obtain ⟨b, -, hc⟩ := List.mem_flatMap.mp hc
  have hb : b.toNat < 256 := b.toNat_lt
  rcases List.mem_pair.mp hc with rfl | rfl
  · exact digit_bytes _ (by omega)
  · exact digit_bytes _ (by omega)

/-- A line with its newline, in the buffer. -/
theorem lineBuffer_newline (line : Bytes) : lineBuffer (line ++ [0x0a]) = line ++ [0, 0] := by
  unfold lineBuffer
  rw [if_pos (by simp), List.dropLast_concat]

/-- A line of `packed-refs`, as it is written. -/
def packedLine (name : Bytes) (id : Sha1) : Bytes :=
  gotSha1DigestToStr id ++ 0x20 :: (name ++ [0x0a])

theorem terminated_newline {line : Bytes} (h : 0x0a ∉ line) :
    Terminated isNewline (line ++ [0x0a]) :=
  ⟨line, 0x0a, rfl, rfl, fun c hc => decide_eq_false fun heq : c = 0x0a => h (heq ▸ hc)⟩

theorem packedLine_eq (name : Bytes) (id : Sha1) :
    packedLine name id = (gotSha1DigestToStr id ++ 0x20 :: name) ++ [0x0a] := by
  unfold packedLine
  rw [List.append_assoc, List.cons_append]

/-- A packed line ends with its newline. -/
theorem terminated_packedLine {name : Bytes} (h : 0x0a ∉ name) (id : Sha1) :
    Terminated isNewline (packedLine name id) := by
  rw [packedLine_eq]
  refine terminated_newline fun hc => ?_
  rcases List.mem_append.mp hc with hc | hc
  · exact gotSha1DigestToStr_bytes id 0x0a hc (by decide)
  · rcases List.mem_cons.mp hc with hc | hc
    · exact absurd hc (by decide)
    · exact h hc

/-- **A line that was written is read again.** -/
theorem parsePackedRefLine_packedLine {name : Bytes} (h : 0 ∉ name) (id : Sha1) :
    parsePackedRefLine none (lineBuffer (packedLine name id))
      = .ok (some ⟨name, .oid id, true⟩) := by
  have hlen := length_gotSha1DigestToStr id
  have hhead : ∀ c ∈ (gotSha1DigestToStr id).head?, c ∉ [0, 0x0a, 0x23, 0x5e, 0x72] := fun c hc =>
    gotSha1DigestToStr_bytes id c (List.mem_of_head? hc)
  have hbuf : lineBuffer (packedLine name id)
    = gotSha1DigestToStr id ++ 0x20 :: (name ++ [0, 0]) := by
    rw [packedLine_eq, lineBuffer_newline, List.append_assoc, List.cons_append]
  have hfirst : (gotSha1DigestToStr id ++ 0x20 :: (name ++ [0, 0])).head? =
      (gotSha1DigestToStr id).head? := by
    cases hhex : gotSha1DigestToStr id with
    | nil => rw [hhex] at hlen; exact nomatch hlen
    | cons c hex => rfl
  have hdrop : (gotSha1DigestToStr id ++ 0x20 :: (name ++ [0, 0])).drop SHA1_DIGEST_STRING_LENGTH =
      name ++ [0, 0] := by
    rw [List.drop_append, List.drop_eq_nil_of_le (by rw [hlen]; decide), hlen]
    rfl
  have hname : stringAt (gotSha1DigestToStr id ++ 0x20 :: (name ++ [0, 0]))
      SHA1_DIGEST_STRING_LENGTH = .ok name := by
    rw [stringAt, if_pos, hdrop, takeWhile_append_zero h]
    rw [List.length_append, hlen, List.length_cons, List.length_append]
    show 41 < 40 + (name.length + 2 + 1)
    omega
  unfold parsePackedRefLine
  rw [hbuf, hfirst, if_neg, gotParseSha1Digest_append]
  · dsimp only
    rw [hname]
    rfl
  · rintro (hc | hc)
    · exact hhead _ hc (by decide)
    · exact hhead _ hc (by decide)

theorem found_eq_ok_iff {found' : Option DiskRef} : found found' = .ok ref ↔ found' = some ref := by
  cases found' with
  | none => exact ⟨fun h => (nomatch h), fun h => (nomatch h)⟩
  | some ref' => exact ⟨fun h => congrArg some (Except.ok.inj h), fun h => by cases h; rfl⟩

/-- Where a reference with an absolute name is found. -/
theorem gotRefOpen_absolute (h : isAbsolute refname) (store : RefStore) :
    store.gotRefOpen refname =
      (looseOf (store.parseRefFile refname (0x2f :: refname)) >>= fun
        | some ref => .ok ref
        | none => store.openPacked refname >>= found) := by
  unfold gotRefOpen
  rw [if_neg (by rw [not_isWellKnownRef_of_isAbsolute h]; exact Bool.false_ne_true),
    openLoose_absolute h]
  rfl

/-- A reference that is well known is found in a file. -/
theorem gotRefOpen_wellKnown (h : isWellKnownRef refname) (store : RefStore) :
    store.gotRefOpen refname = (store.parseRefFile refname (0x2f :: refname) >>= found) := by
  have hdir : getRefsDirPath refname = [] := if_pos (Or.inl h)
  have hopen : store.openRef [] [] refname = store.parseRefFile refname (0x2f :: refname) :=
    if_pos (Or.inr ⟨rfl, h⟩)
  unfold gotRefOpen
  rw [if_pos h, hdir, hopen]

end RefStore

end Got

import Got.Reference.Open

/-!
# Loose and packed references

Packing references moves them from their files to lines of `packed-refs`, which are in the order
of their names. It should not matter to whoever opens a reference.

It does matter where a name matches in several directories. The directories have an order, and
files are searched in that order, but all files are searched before `packed-refs` is. There
the order is that of the alphabet, in which `remotes` comes before `tags`.
-/

namespace Got

/-- What `got_ref_write` puts into the file of a reference. -/
def refFileText : RefTarget → Bytes
  | .oid id => ObjectFile.gotSha1DigestToStr id ++ [0x0a]
  | .symref ref => text "ref: " ++ (ref ++ [0x0a])

/-- **The references of a repository**, each of which is either loose or packed. -/
structure Layout where
  loose : List (Bytes × RefTarget)
  packed : List (Bytes × Sha1)
  /-- There is one reference of a name. -/
  nodup : ∀ name ∈ loose.map Prod.fst, name ∉ packed.map Prod.fst
  /-- A symbolic reference points at a name. -/
  target : ∀ name ref, (name, .symref ref) ∈ loose → ref ≠ [] ∧ 0 ∉ ref ∧ 0x0a ∉ ref
  /-- Only references below `refs/` are packed. -/
  absolute : ∀ r ∈ packed, RefStore.isAbsolute r.1
  /-- The lines of `packed-refs` are in the order of names. -/
  sorted : packed.Pairwise (fun r s => r.1 < s.1)

namespace Layout

open RefStore Lines ObjectFile

/-- The lines of `packed-refs`, as references. -/
def packedRefs (l : Layout) : List DiskRef := l.packed.map fun r => ⟨r.1, .oid r.2, true⟩

/-- **A store holds references** if it has a file for each that is loose, and a line for each
that is packed. There may be other lines which are comments. -/
structure Holds (l : Layout) (store : RefStore) : Prop where
  files : store.files = l.loose.map fun r => (0x2f :: r.1, refFileText r.2)
  packed : match store.packedRefs with
    | none => l.packed = []
    | some content => readPacked (lines isNewline content) = .ok l.packedRefs

/-- What a reference points at, wherever it is. -/
def refs (l : Layout) (name : Bytes) : Option RefTarget :=
  l.loose.lookup name <|> (l.packed.lookup name).map .oid

/-! ## The text of a file -/

/-- The content of a reference's file is read as the one line it is. -/
theorem parseRefContent_line {line : Bytes} (h0 : 0 ∉ line) (hnl : 0x0a ∉ line) (absname : Bytes) :
    parseRefContent absname (line ++ [0x0a]) = (parseRefLine absname line).map some := by
  have hlines : lines isNewline (line ++ [0x0a]) = [line ++ [0x0a]] := by
    have h := lines_cons (terminated_newline hnl) []
    rwa [List.append_nil] at h
  unfold parseRefContent
  rw [hlines]
  dsimp only
  rw [lineBuffer_newline, takeWhile_append_zero h0]

/-- **What is written into the file of a reference is read again.** -/
theorem parseRefContent_refFileText {target : RefTarget}
    (h : ∀ ref, target = .symref ref → ref ≠ [] ∧ 0 ∉ ref ∧ 0x0a ∉ ref) (absname : Bytes) :
    parseRefContent absname (refFileText target) = .ok (some ⟨absname, target, false⟩) := by
  cases target with
  | oid id =>
    have hbytes := gotSha1DigestToStr_bytes id
    have hne : ¬text "ref: " <+: gotSha1DigestToStr id := by
      rintro ⟨rest, heq⟩
      exact hbytes 0x72 (heq ▸ List.mem_append_left _ (by decide)) (by decide)
    have hparse := gotParseSha1Digest_append id []
    rw [List.append_nil] at hparse
    rw [refFileText, parseRefContent_line (fun h0 => hbytes 0 h0 (by decide))
      (fun h0 => hbytes 0x0a h0 (by decide)), parseRefLine, if_neg hne, hparse]
    rfl
  | symref ref =>
    obtain ⟨hne, h0, hnl⟩ := h ref rfl
    have hmem : ∀ c, c ∉ text "ref: " → c ∉ ref → c ∉ text "ref: " ++ ref := fun c h h' hc =>
      (List.mem_append.mp hc).elim h h'
    have hdrop : (text "ref: " ++ ref).drop 5 = ref := rfl
    rw [refFileText, ← List.append_assoc, parseRefContent_line (hmem 0 (by decide) h0)
      (hmem 0x0a (by decide) hnl), parseRefLine, if_pos (List.prefix_append _ _), hdrop,
      parseSymref, if_neg hne]
    rfl

/-! ## What is found -/

variable {l : Layout} {store : RefStore} {refname name : Bytes}

/-- A loose reference, as it is opened. -/
def looseRef (l : Layout) (name : Bytes) : Option DiskRef :=
  (l.loose.lookup name).map fun target => ⟨name, target, false⟩

/-- The file of a reference is found under its name. -/
theorem lookup_files (files : List (Bytes × RefTarget)) (name : Bytes) :
    (files.map fun r => ((0x2f :: r.1 : Bytes), refFileText r.2)).lookup (0x2f :: name) =
      (files.lookup name).map refFileText := by
  induction files with
  | nil => rfl
  | cons r files ih =>
    rw [List.map_cons, List.lookup_cons, List.lookup_cons, ih]
    have hbeq : ((0x2f :: name : Bytes) == 0x2f :: r.1) = (name == r.1) := by simp
    rw [hbeq]
    cases name == r.1 <;> rfl

/-- **A file is found if the reference is loose.** -/
theorem Holds.parseRefFile (h : l.Holds store) (name : Bytes) :
    looseOf (store.parseRefFile name (0x2f :: name)) = .ok (l.looseRef name) := by
  have hfile : store.file (0x2f :: name) = (l.loose.lookup name).map refFileText := by
    rw [file, h.files, lookup_files]
  unfold RefStore.parseRefFile looseRef
  rw [hfile]
  cases hlookup : l.loose.lookup name with
  | none => rfl
  | some target =>
    have htarget : ∀ ref, target = .symref ref → ref ≠ [] ∧ 0 ∉ ref ∧ 0x0a ∉ ref := by
      rintro ref rfl
      obtain ⟨before, after, hloose, -⟩ := List.lookup_eq_some_iff.mp hlookup
      exact l.target name ref (hloose ▸ List.mem_append_right _ List.mem_cons_self)
    dsimp only [Option.map_some]
    rw [parseRefContent_refFileText htarget]
    rfl

/-- A line is found if a candidate is packed. -/
theorem Holds.openPacked (h : l.Holds store) (refname : Bytes) :
    store.openPacked refname = .ok (l.packedRefs.find? (·.name ∈ candidates refname)) := by
  have hpacked := h.packed
  unfold RefStore.openPacked
  cases hcontent : store.packedRefs with
  | none =>
    rw [hcontent] at hpacked
    rw [packedRefs, show l.packed = [] from hpacked]
    rfl
  | some content =>
    rw [hcontent] at hpacked
    exact openPackedRef_of_readPacked hpacked refname

/-- The next directory is tried if there is nothing in this one. -/
theorem Holds.openLoose (h : l.Holds store)
    (hrel : ¬(isWellKnownRef refname ∨ isAbsolute refname)) :
    store.openLoose (getRefsDirPath refname) refname subdirs =
      .ok ((candidates refname).findSome? l.looseRef) := by
  have hdir : getRefsDirPath refname = text "/refs" := if_neg hrel
  have habs : ¬isAbsolute refname := fun habs => hrel (Or.inr habs)
  have hopen : ∀ subdir, subdir ≠ [] → looseOf (store.openRef (text "/refs") subdir refname) =
      .ok (l.looseRef (absRefname subdir refname)) := fun subdir hsubdir => by
    have hname : absRefname subdir refname = text "refs/" ++ (subdir ++ 0x2f :: refname) :=
      if_neg habs
    rw [openRef, if_neg (by simp [habs, hsubdir]), if_neg hsubdir, ← h.parseRefFile, hname]
    rfl
  rw [hdir]
  unfold subdirs candidates
  rw [openLoose_cons, openLoose_cons, openLoose_cons, hopen _ (by decide), hopen _ (by decide),
    hopen _ (by decide), subdirs]
  simp only [List.map_cons, List.map_nil, List.findSome?_cons, List.findSome?_nil]
  cases l.looseRef (absRefname GOT_REF_HEADS refname) with
  | some ref => rfl
  | none =>
    cases l.looseRef (absRefname GOT_REF_TAGS refname) with
    | some ref => rfl
    | none => cases l.looseRef (absRefname GOT_REF_REMOTES refname) <;> rfl

/-- **All files are searched before `packed-refs` is.** -/
theorem Holds.gotRefOpen (h : l.Holds store)
    (hrel : ¬(isWellKnownRef refname ∨ isAbsolute refname)) :
    store.gotRefOpen refname = found ((candidates refname).findSome? l.looseRef <|>
      l.packedRefs.find? (·.name ∈ candidates refname)) := by
  unfold RefStore.gotRefOpen
  rw [if_neg fun hknown => hrel (Or.inl hknown), h.openLoose hrel, ok_bind]
  cases (candidates refname).findSome? l.looseRef with
  | some ref => rfl
  | none =>
    dsimp only
    rw [h.openPacked, ok_bind]
    rfl

/-! ## The order of directories -/

/-- Whether a reference is loose. -/
def IsLoose (l : Layout) (name : Bytes) : Prop := (l.loose.lookup name).isSome

end Layout

end Got

import Got.Lib.Action
import Got.Reference.Names

/-!
# Deleting references

A reference is deleted where it was opened, in its file or in `packed-refs`. Then it is opened
once more, and deleted from the other place if it is found there.

A line of `packed-refs` is taken out by writing the file anew, with all other references in the
order of their names. Of several lines with the same name the first stays, unless that name is
deleted: only lines are left out which name the same object as well. So a name stays where
there is another line for it, with another object. Nobody looks for it any more after that.
-/

namespace Got

namespace RefStore

open Lines ObjectFile ActionM

/-! ## The functions -/

/-- `unlink(2)` -/
def unlink (path : Bytes) : ActionM GotErr RefStore Unit := do
  if (← get).file path = none then throw (.errno .noent)
  modify fun store => { store with files := store.files.filter (·.1 ≠ path) }

/-- Whether a line names the object that is deleted, by the name that is deleted. -/
def isDelref (delref ref : DiskRef) : Bool := ref.name = delref.name ∧ ref.target = delref.target

/-- The loop of `delete_packed_ref` over the lines, with the references that stay and whether
the one to be deleted was found. -/
def deletePackedLoop (delref : DiskRef) :
    List Bytes → List DiskRef → Bool → Except GotErr (List DiskRef × Bool)
  | [], refs, foundDelref => .ok (refs, foundDelref)
  | line :: rest, refs, foundDelref => do
    match ← parsePackedRefLine none (lineBuffer line) with
    | none => deletePackedLoop delref rest refs foundDelref
    | some ref =>
      if isDelref delref ref then deletePackedLoop delref rest refs true
      else deletePackedLoop delref rest (insertRef refs ref) foundDelref

/-- The line of a reference in `packed-refs`, where there are no symbolic references. -/
def refLine (ref : DiskRef) : Bytes :=
  match ref.target with
  | .oid id => packedLine ref.name id
  | .symref _ => []

/-- What `delete_packed_ref` writes. -/
def packedRefsText (refs : List DiskRef) : Bytes :=
  (GOT_PACKED_REFS_HEADER ++ [0x0a]) ++ (refs.map refLine).flatten

/-- `delete_packed_ref`. The file is written if there is something to be left out. -/
def deletePackedRef (delref : DiskRef) : ActionM GotErr RefStore Unit := do
  match delref.target with
  | .symref _ => throw .badRefData
  | .oid _ =>
    match (← get).packedRefs with
    | none => throw (.errno .noent)
    | some content =>
      let (refs, foundDelref) ← ofExcept
        (deletePackedLoop delref (lines isNewline content) [] false)
      if foundDelref then modify fun store =>
        { store with packedRefs := some (packedRefsText refs) }

/-- **What is left of references** without those that name the same object by the same name. -/
def withoutRef (delref : DiskRef) (refs : List DiskRef) : List DiskRef :=
  refs.filter fun ref => !isDelref delref ref

/-- The loop over the packed lines keeps those of other references, and notes whether it met the one
to delete. -/
theorem deletePackedLoop_eq (delref : DiskRef) (ls : List Bytes) (refs : List DiskRef)
    (foundDelref : Bool) :
    deletePackedLoop delref ls refs foundDelref = (readPacked ls).map fun es =>
      ((withoutRef delref es).foldl insertRef refs, foundDelref || es.any (isDelref delref)) := by
  induction ls generalizing refs foundDelref with
  | nil => simp [deletePackedLoop, readPacked, withoutRef, Except.map]
  | cons line rest ih =>
    rw [deletePackedLoop, readPacked]
    cases parsePackedRefLine none (lineBuffer line) with
    | error e => rfl
    | ok found =>
      rw [ok_bind, ok_bind]
      cases found with
      | none => exact ih refs foundDelref
      | some ref =>
        dsimp only
        by_cases h : isDelref delref ref
        · rw [if_pos h, ih]
          cases readPacked rest with
          | error e => rfl
          | ok es => simp [withoutRef, h, bind, Except.bind, Except.map, pure, Except.pure]
        · rw [if_neg h, ih]
          cases readPacked rest with
          | error e => rfl
          | ok es => simp [withoutRef, h, bind, Except.bind, Except.map, pure, Except.pure]

/-! ## What is written -/

/-- There is no newline in the buffer of a line. -/
theorem newline_not_mem_lineBuffer {content line : Bytes} (h : line ∈ lines isNewline content) :
    0x0a ∉ lineBuffer line := by
  have hbody : ∀ c ∈ line.dropLast, c ≠ 0x0a := fun c hc =>
    of_decide_eq_false (isEnd_of_mem_dropLast h c hc)
  unfold lineBuffer
  split
  · intro hc
    rcases List.mem_append.mp hc with hc | hc
    · exact hbody _ hc rfl
    · exact absurd hc (by decide)
  · next hlast =>
    intro hc
    rcases List.mem_append.mp hc with hc | hc
    · have hne : line ≠ [] := List.ne_nil_of_mem hc
      rw [← List.dropLast_append_getLast hne] at hc
      rcases List.mem_append.mp hc with hc | hc
      · exact hbody _ hc rfl
      · refine hlast ?_
        rw [List.getLast?_eq_getLast_of_ne_nil hne, ← List.mem_singleton.mp hc]
    · exact absurd hc (by decide)

/-- The name of a reference which was read is a string, in a line. -/
theorem name_of_readPacked {content : Bytes} {es : List DiskRef} {ref : DiskRef}
    (h : readPacked (lines isNewline content) = .ok es) (href : ref ∈ es) :
    0 ∉ ref.name ∧ 0x0a ∉ ref.name := by
  obtain ⟨line, hmem, hline⟩ := exists_line_of_readPacked h href
  obtain ⟨id, -, hname⟩ := parsePackedRefLine_none hline
  unfold stringAt at hname
  split at hname
  · rw [← Except.ok.inj hname]
    refine ⟨fun h0 => ?_, fun hnl => newline_not_mem_lineBuffer hmem
      (List.mem_of_mem_drop ((List.takeWhile_sublist _).mem hnl))⟩
    exact absurd (List.mem_takeWhile_imp h0) (by decide)
  · cases hname

/-- References as they are read from lines. -/
def ArePacked (refs : List DiskRef) : Prop :=
  ∀ ref ∈ refs, (∃ id, ref = ⟨ref.name, .oid id, true⟩) ∧ 0 ∉ ref.name ∧ 0x0a ∉ ref.name

/-- The lines of packed references are read back as those references. -/
theorem readPacked_refLines {refs : List DiskRef} (h : ArePacked refs) :
    readPacked (refs.map refLine) = .ok refs ∧
      ∀ line ∈ refs.map refLine, Terminated isNewline line := by
  induction refs with
  | nil => exact ⟨rfl, fun _ h => absurd h List.not_mem_nil⟩
  | cons ref refs ih =>
    obtain ⟨⟨⟨id, hid⟩, h0, hnl⟩, hrefs⟩ := List.forall_mem_cons.mp h
    obtain ⟨hread, hlines⟩ := ih hrefs
    have hline : refLine ref = packedLine ref.name id := by rw [hid, refLine]
    rw [List.map_cons, hline]
    refine ⟨?_, List.forall_mem_cons.mpr ⟨terminated_packedLine hnl id, hlines⟩⟩
    rw [readPacked, parsePackedRefLine_packedLine h0, ok_bind, hread, ← hid]
    rfl

/-- **What is written is read again.** -/
theorem readPacked_packedRefsText {refs : List DiskRef} (h : ArePacked refs) :
    readPacked (lines isNewline (packedRefsText refs)) = .ok refs := by
  obtain ⟨hread, hlines⟩ := readPacked_refLines h
  have hheader : Terminated isNewline (GOT_PACKED_REFS_HEADER ++ [0x0a]) :=
    terminated_newline (by decide)
  have hcut : lines isNewline (packedRefsText refs) =
      (GOT_PACKED_REFS_HEADER ++ [0x0a]) :: refs.map refLine := by
    have hrest := lines_append hlines []
    rw [List.append_nil, lines_nil, List.append_nil] at hrest
    rw [packedRefsText, lines_cons hheader, hrest]
  have hcomment : parsePackedRefLine none (lineBuffer (GOT_PACKED_REFS_HEADER ++ [0x0a]))
    = .ok none := by
    rw [lineBuffer_newline, parsePackedRefLine, if_pos (by decide)]
  rw [hcut, readPacked, hcomment, ok_bind]
  exact hread

theorem arePacked_of_readPacked {content : Bytes} {es : List DiskRef}
    (h : readPacked (lines isNewline content) = .ok es) : ArePacked es := fun _ href =>
  ⟨mem_readPacked h href, name_of_readPacked h href⟩

/-! ## What is found after a line was taken out -/

/-- The references that are written. -/
def remaining (delref : DiskRef) (es : List DiskRef) : List DiskRef :=
  (withoutRef delref es).foldl insertRef []

theorem arePacked_remaining {es : List DiskRef} (h : ArePacked es) (delref : DiskRef) :
    ArePacked (remaining delref es) := fun ref href => by
  rcases mem_foldl_insertRef List.Pairwise.nil href with href | href
  · exact absurd href List.not_mem_nil
  · exact h ref (List.mem_of_mem_filter href)

/-- Of what is left, the first with a name that counts as this one, if it has this name. -/
def firstLike (left : List DiskRef) (name : Bytes) : Option DiskRef :=
  (left.find? (refKey · = cmpKey (namePath name))).filter (·.name = name)

/-- **A name is found in what is written if it is the first of those which count as the same.** -/
theorem find?_remaining (delref : DiskRef) (es : List DiskRef) (name : Bytes) :
    (remaining delref es).find? (·.name = name) = firstLike (withoutRef delref es) name := by
  obtain ⟨horder, hfind⟩ := find?_foldl_insertRef (withoutRef delref es) List.Pairwise.nil
    (cmpKey (namePath name))
  rw [remaining, find?_name horder, hfind]
  rfl

/-- Where the lines are read, an absolute name is found in the first line that has it. -/
theorem openPacked_absolute {store : RefStore} {content name : Bytes} {es : List DiskRef}
    (hcontent : store.packedRefs = some content)
    (hread : readPacked (lines isNewline content) = .ok es)
    (habs : isAbsolute name) : store.openPacked name = .ok (es.find? (·.name = name)) := by
  have hfind : (fun ref : DiskRef => decide (ref.name ∈ candidates name)) =
      fun ref => decide (ref.name = name) :=
    funext fun ref => decide_eq_decide.mpr (mem_candidates_absolute habs)
  rw [openPacked, hcontent]
  dsimp only
  rw [openPackedRef_of_readPacked hread, hfind]

/-! ## One step after the other -/

variable {store store' : RefStore} {ref delref : DiskRef} {content name path : Bytes}
  {es : List DiskRef}

/-- The store without a file. -/
def withoutFile (store : RefStore) (path : Bytes) : RefStore :=
  { store with files := store.files.filter (·.1 ≠ path) }

/-- The store with other lines in `packed-refs`. -/
def withPacked (store : RefStore) (refs : List DiskRef) : RefStore :=
  { store with packedRefs := some (packedRefsText refs) }

/-- Without the file of a reference the other files are the same. -/
theorem file_withoutFile (store : RefStore) (path path' : Bytes) :
    (store.withoutFile path).file path' = if path' = path then none else store.file path' := by
  unfold withoutFile file
  dsimp only
  induction store.files with
  | nil => rw [List.filter_nil, List.lookup_nil, ite_self]
  | cons f files ih =>
    by_cases hf : f.1 = path
    · rw [List.filter_cons_of_neg (by simpa using hf), ih, List.lookup_cons]
      split
      · rfl
      · next hne =>
        have hbeq : (path' == f.1) = false := beq_false_of_ne (hf ▸ hne)
        rw [hbeq]
    · rw [List.filter_cons_of_pos (by simpa using hf), List.lookup_cons, List.lookup_cons, ih]
      by_cases hpath : path' = f.1
      · subst hpath
        simp [hf]
      · have hbeq : (path' == f.1) = false := beq_false_of_ne hpath
        rw [hbeq]

/-- **A line is taken out** if all lines can be read. -/
theorem exec_deletePackedRef {id : Sha1} (htarget : delref.target = .oid id)
    (hcontent : store.packedRefs = some content)
    (hread : readPacked (lines isNewline content) = .ok es) (hmem : delref ∈ es) :
    (deletePackedRef delref).exec store = (.ok (), store.withPacked (remaining delref es)) := by
  have hany : es.any (isDelref delref) = true :=
    List.any_eq_true.mpr ⟨delref, hmem, decide_eq_true ⟨rfl, rfl⟩⟩
  have hloop : deletePackedLoop delref (lines isNewline content) [] false =
      .ok (remaining delref es, true) := by
    rw [deletePackedLoop_eq, hread, Except.map, Bool.false_or, hany]
    rfl
  unfold deletePackedRef
  rw [htarget]
  dsimp only
  rw [exec_bind_ok (exec_get store), hcontent]
  dsimp only
  rw [hloop, exec_bind_ok (exec_ofExcept _ store)]
  rfl

/-- The first line with a name, among all that are read. -/
structure FirstLine (store : RefStore) (name : Bytes) (es : List DiskRef) (ref : DiskRef) :
    Prop where
  lines : ∃ content, store.packedRefs = some content ∧
    readPacked (lines isNewline content) = .ok es
  find : es.find? (·.name = name) = some ref

theorem FirstLine.mem (h : store.FirstLine name es ref) : ref ∈ es :=
  List.mem_of_find?_eq_some h.find

theorem FirstLine.oid (h : store.FirstLine name es ref) :
    ∃ id, ref = ⟨ref.name, .oid id, true⟩ := by
  obtain ⟨content, -, hread⟩ := h.lines
  exact mem_readPacked hread h.mem

theorem FirstLine.openPacked (h : store.FirstLine name es ref) (habs : isAbsolute name) :
    store.openPacked name = .ok (some ref) := by
  obtain ⟨content, hcontent, hread⟩ := h.lines
  rw [openPacked_absolute hcontent hread habs, h.find]

/-- The first line is taken out of any store with these lines. -/
theorem FirstLine.exec (h : store.FirstLine name es ref)
    (hpacked : store'.packedRefs = store.packedRefs) :
    (deletePackedRef ref).exec store' = (.ok (), store'.withPacked (remaining ref es)) := by
  obtain ⟨content, hcontent, hread⟩ := h.lines
  obtain ⟨id, hid⟩ := h.oid
  exact exec_deletePackedRef (congrArg DiskRef.target hid) (hpacked.trans hcontent) hread h.mem

/-- **After a line was taken out**, and possibly a file as well. -/
structure TakenOut (store store' : RefStore) (name : Bytes) (left : List DiskRef) : Prop where
  files : ∀ path, path ≠ 0x2f :: name → store'.file path = store.file path
  loose : looseOf (store'.parseRefFile name (0x2f :: name)) = .ok none
  packed : ∀ name', isAbsolute name' → store'.openPacked name' = .ok (firstLike left name')

/-- Once `packed-refs` is written without a reference, a name finds the first of the other lines
that it compares equal to. -/
theorem FirstLine.packed (h : store.FirstLine name es ref) (name' : Bytes)
    (habs : isAbsolute name') :
    (store'.withPacked (remaining ref es)).openPacked name'
    = .ok (firstLike (withoutRef ref es) name') := by
  obtain ⟨content, -, hread⟩ := h.lines
  have hnew := readPacked_packedRefsText (arePacked_remaining (arePacked_of_readPacked hread) ref)
  rw [openPacked_absolute rfl hnew habs, find?_remaining]

/-- What is opened if there is no file. -/
theorem gotRefOpen_of_looseOf (habs : isAbsolute name)
    (h : looseOf (store.parseRefFile name (0x2f :: name)) = .ok none) :
    store.gotRefOpen name = store.openPacked name >>= found := by
  rw [gotRefOpen_absolute habs, h]
  rfl

/-- A name which says where a reference is. -/
def IsFullName (name : Bytes) : Prop := isWellKnownRef name ∨ isAbsolute name

/-- What a file has is not packed. -/
theorem not_isPacked_of_parseRefFile {absname : Bytes}
    (h : store.parseRefFile absname path = .ok (some ref)) :
    ref.isPacked = false ∧ store.file path ≠ none := by
  unfold parseRefFile at h
  split at h
  · cases h
  · next content hfile =>
    refine ⟨?_, by rw [hfile]; exact Option.some_ne_none _⟩
    unfold parseRefContent at h
    split at h
    · cases h
    · obtain ⟨ref', hline, heq⟩ := Records.map_eq_ok_iff.mp h
      obtain rfl := Option.some.inj heq
      unfold parseRefLine parseSymref at hline
      split at hline <;> split at hline <;> cases hline <;> rfl

/-- **Where a reference was opened**: in its file, or in a line if there is nothing in a file. -/
theorem gotRefOpen_places (habs : isAbsolute name) (hopen : store.gotRefOpen name = .ok ref) :
    (looseOf (store.parseRefFile name (0x2f :: name)) = .ok (some ref) ∧ ref.isPacked = false ∧
      store.file (0x2f :: name) ≠ none) ∨
    (looseOf (store.parseRefFile name (0x2f :: name)) = .ok none ∧ ref.isPacked = true ∧
      store.openPacked name = .ok (some ref)) := by
  rw [gotRefOpen_absolute habs] at hopen
  obtain ⟨loose, hloose, hopen⟩ := bind_eq_ok_iff.mp hopen
  cases loose with
  | some loose =>
    obtain rfl := Except.ok.inj hopen
    have hparse : store.parseRefFile name (0x2f :: name) = .ok (some loose) := by
      cases hparse : store.parseRefFile name (0x2f :: name) with
      | error e =>
        rw [hparse] at hloose
        cases e <;> cases hloose
      | ok result =>
        rw [hparse] at hloose
        exact hloose
    obtain ⟨hpacked, hfile⟩ := not_isPacked_of_parseRefFile hparse
    exact Or.inl ⟨hloose, hpacked, hfile⟩
  | none =>
    obtain ⟨result, hresult, hopen⟩ := bind_eq_ok_iff.mp hopen
    rw [found_eq_ok_iff] at hopen
    subst hopen
    refine Or.inr ⟨hloose, ?_, hresult⟩
    unfold openPacked at hresult
    split at hresult
    · cases hresult
    · obtain ⟨id, hid⟩ := openPackedRef_packed hresult
      rw [hid]

/-- **Other references after a line was taken out.** -/
theorem TakenOut.others {left : List DiskRef} (h : store.TakenOut store' ref.name left)
    {other : DiskRef} (hname : IsFullName name) (hne : name ≠ ref.name)
    (hopen : store.gotRefOpen name = .ok other) :
    store'.gotRefOpen name = .ok other ↔
      (isAbsolute name → other.isPacked → firstLike left name = some other) := by
  have hpath : (0x2f :: name : Bytes) ≠ 0x2f :: ref.name := fun heq => hne (List.cons.inj heq).2
  have hparse : store'.parseRefFile name (0x2f :: name) =
      store.parseRefFile name (0x2f :: name) := by
    rw [parseRefFile, h.files _ hpath]
    rfl
  rcases hname with hknown | habs
  · have hrel : ¬isAbsolute name := fun habs => by
      rw [not_isWellKnownRef_of_isAbsolute habs] at hknown
      exact nomatch hknown
    rw [gotRefOpen_wellKnown hknown] at hopen ⊢
    rw [hparse]
    exact iff_of_true hopen fun habs => absurd habs hrel
  · rw [gotRefOpen_absolute habs, hparse]
    rcases gotRefOpen_places habs hopen with ⟨hloose, hpacked, -⟩ | ⟨hloose, hpacked, -⟩
    · rw [hloose]
      refine iff_of_true rfl fun _ h => ?_
      rw [hpacked] at h
      exact nomatch h
    · rw [hloose, ok_bind]
      dsimp only
      rw [h.packed name habs, ok_bind, found_eq_ok_iff]
      exact ⟨fun h _ _ => h, fun h => h habs hpacked⟩

/-- **A reference and others after a line was taken out.** -/
theorem TakenOut.iff {left : List DiskRef} (h : store.TakenOut store' ref.name left)
    (habs : isAbsolute ref.name) :
    (store'.gotRefOpen ref.name = .error .notRef ∧
      ∀ name other, IsFullName name → name ≠ ref.name → store.gotRefOpen name = .ok other →
        store'.gotRefOpen name = .ok other) ↔
    (firstLike left ref.name = none ∧
      ∀ name other, isAbsolute name → name ≠ ref.name → store.gotRefOpen name = .ok other →
        other.isPacked → firstLike left name = some other) := by
  refine and_congr ?_ ⟨fun hall name other hname hne hopen => ?_,
    fun hall name other hname hne hopen => ?_⟩
  · rw [gotRefOpen_of_looseOf habs h.loose, h.packed _ habs, ok_bind]
    cases firstLike left ref.name with
    | none => exact ⟨fun _ => rfl, fun _ => rfl⟩
    | some ref2 => exact ⟨fun h => (nomatch h), fun h => (nomatch h)⟩
  · exact (h.others (Or.inr hname) hne hopen).mp (hall name other (Or.inr hname) hne hopen) hname
  · exact (h.others hname hne hopen).mpr fun habs => hall name other habs hne hopen

end RefStore

end Got

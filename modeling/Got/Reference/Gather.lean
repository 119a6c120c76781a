import Mathlib.Data.Prod.Lex
import Mathlib.Order.OrderDual
import Got.PathTrim
import Got.Reference.Names

/-!
# Listing references

Files in the directory of references are read first, whatever order a directory has its entries in,
and lines of `packed-refs` after them. Each reference is inserted into a list that is kept in order,
and is dropped if it compares equal to one that is there.

So the comparison also decides what is a duplicate. A list has one reference of each name, the first
that is read, if and only if what compares equal to something read before is what has the name of
something read before (`listsRefs_iff`). Names do that. A comparison of tags looks at the time of a
tag before its name, so a tag which was packed and then moved is there twice.
-/

namespace Got

open Lines ObjectFile

/-- **A directory**, in the order in which `readdir(3)` has its entries. -/
inductive Dirents
  | nil
  | reg (name : Bytes) (rest : Dirents)
  | dir (name : Bytes) (entries rest : Dirents)
  /-- A symlink or a device, which is skipped. -/
  | other (rest : Dirents)

/-- **References, and the directories with their files.** Directories have names below that of the
repository. -/
structure RefDirs extends RefStore where
  opendir : Bytes → Option Dirents

/-- `got_ref_cmp_cb` -/
abbrev RefCmp : Type := DiskRef → DiskRef → Except GotErr Ordering

/-! ## Comparisons -/

/-- `got_ref_cmp_by_name` -/
def gotRefCmpByName : RefCmp := fun re1 re2 =>
  .ok (gotPathCmp (RefStore.namePath re1.name) (RefStore.namePath re2.name))

/-- `got_ref_cmp_tags`, where `time` opens the tag or the commit at which a reference points. -/
def gotRefCmpTags (time : DiskRef → Except GotErr ℤ) : RefCmp := fun ref1 ref2 => do
  let time1 ← time ref1
  let time2 ← time ref2
  -- put latest tags first
  if time1 < time2 then return .gt
  else if time2 < time1 then return .lt
  else gotRefCmpByName ref2 ref1

/-! ## Inserting -/

namespace RefDirs

/-- The loop of `insert_ref`, which begins at the end of the list. -/
def insertRefRev (cmp : RefCmp) (new : DiskRef) : List DiskRef → Except GotErr (List DiskRef)
  | [] => .ok [new]
  | re :: rev => do
    match ← cmp re new with
    | .eq => return re :: rev
    | .lt => return new :: re :: rev
    | .gt => return re :: (← insertRefRev cmp new rev)

/-- **`insert_ref`**. A duplicate is not inserted. -/
def insertRef (cmp : RefCmp) (refs : List DiskRef) (ref : DiskRef) : Except GotErr (List DiskRef) :=
  (insertRefRev cmp ref refs.reverse).map List.reverse

/-- **In the order of names** nothing fails, and a list is what `RefStore.insertRef` makes of it. -/
theorem insertRef_byName (refs : List DiskRef) (ref : DiskRef) :
    insertRef gotRefCmpByName refs ref = .ok (RefStore.insertRef refs ref) := by
  have hrev : ∀ rev, insertRefRev gotRefCmpByName ref rev
      = .ok ((pathlistInsertRev (fun r => RefStore.namePath r.name) ref rev).getD rev) := by
    intro rev
    induction rev with
    | nil => rfl
    | cons re rev ih =>
      rw [insertRefRev, pathlistInsertRev, gotRefCmpByName, ok_bind, ih]
      cases gotPathCmp (RefStore.namePath re.name) (RefStore.namePath ref.name) with
      | eq => rfl
      | lt => rfl
      | gt => cases pathlistInsertRev (fun r => RefStore.namePath r.name) ref rev <;> rfl
  rw [insertRef, hrev, RefStore.insertRef, gotPathlistInsert]
  cases pathlistInsertRev (fun r => RefStore.namePath r.name) ref refs.reverse with
  | none => exact congrArg Except.ok refs.reverse_reverse
  | some rev => rfl

/-! ## Gathering -/

/-- The directory of references. -/
def pathRefs : Bytes := RefStore.getRefsDirPath []

/-- The name of a directory below another. -/
def childPath (subdir name : Bytes) : Bytes :=
  if subdir = [] then name else subdir ++ 0x2f :: name

/-- A file in a directory of references. -/
def gatherFile (store : RefDirs) (cmp : RefCmp) (subdir name : Bytes) (refs : List DiskRef) :
    Except GotErr (List DiskRef) := do
  match ← store.openRef pathRefs subdir name with
  | some ref => insertRef cmp refs ref
  | none => return refs

/-- The loop of `gather_on_disk_refs`. An error in a directory is overwritten at the next entry. -/
def gatherDirents (store : RefDirs) (cmp : RefCmp) (subdir : Bytes) :
    Dirents → Except GotErr Unit → List DiskRef → List DiskRef × Except GotErr Unit
  | .nil, err, refs => (refs, err)
  | .reg name rest, _, refs =>
    match gatherFile store cmp subdir name refs with
    | .error e => (refs, .error e)
    | .ok refs' => gatherDirents store cmp subdir rest (.ok ()) refs'
  | .dir name entries rest, _, refs =>
    let gathered := gatherDirents store cmp (childPath subdir name) entries (.ok ()) refs
    gatherDirents store cmp subdir rest gathered.2 gathered.1
  | .other rest, _, refs => gatherDirents store cmp subdir rest (.ok ()) refs

/-- `gather_on_disk_refs`. There may be no such directory. -/
def gatherOnDiskRefs (store : RefDirs) (cmp : RefCmp) (subdir : Bytes) (refs : List DiskRef) :
    List DiskRef × Except GotErr Unit :=
  let subdir := subdir.dropWhile (· = 0x2f)
  match store.opendir (pathRefs ++ 0x2f :: subdir) with
  | none => (refs, .ok ())
  | some entries => gatherDirents store cmp subdir entries (.ok ()) refs

/-- The name of a path. -/
def pathBytes (path : Str) : Bytes := path.map fun c => UInt8.ofNat c.toNat

/-- The directory of a namespace. -/
def ondiskRefNamespace : Option Bytes → Except GotErr Bytes
  | none => .ok []
  | some refNamespace => do
    let absNamespace := '/' :: RefStore.namePath refNamespace
    let buf ← canonLoop (absNamespace.length + 1) (absNamespace.length + 1) absNamespace []
    let path := pathBytes (buf.dropWhile (· = '/'))
    if text "refs/" <+: path then return path.drop 5
    else if path = text "refs" then return []
    else return path

/-- Whether a packed reference is one of those that are listed. -/
def inNamespace (refNamespace : Option Bytes) (ref : DiskRef) : Bool :=
  match refNamespace with
  | none => true
  | some refNamespace =>
    gotPathIsChild (RefStore.namePath ref.name) (RefStore.namePath refNamespace)

/-- The loop of `got_ref_list` over the lines of `packed-refs`. -/
def listPacked (cmp : RefCmp) (refNamespace : Option Bytes) :
    List Bytes → List DiskRef → Except GotErr (List DiskRef)
  | [], refs => .ok refs
  | line :: rest, refs => do
    match ← RefStore.parsePackedRefLine none (RefStore.lineBuffer line) with
    | none => listPacked cmp refNamespace rest refs
    | some ref =>
      if inNamespace refNamespace ref then
        listPacked cmp refNamespace rest (← insertRef cmp refs ref)
      else listPacked cmp refNamespace rest refs

/-- What is listed before directories are read, and whether that is all: `HEAD`, or the one
reference that is asked for. An empty file is no reference. It makes an entry without one, which is
not to be looked at. -/
def listFirst (store : RefDirs) (cmp : RefCmp) (refNamespace : Option Bytes) :
    Except GotErr (List DiskRef × Bool) :=
  if refNamespace.getD [] = [] then do
    match ← store.openRef (RefStore.getRefsDirPath (text "HEAD")) [] (text "HEAD") with
    | some ref => return (← insertRef cmp [] ref, false)
    | none => throw .outOfMap
  else
    let refname := refNamespace.getD []
    match store.openRef (RefStore.getRefsDirPath refname) [] refname with
    | .error .notRef => .ok ([], false)
    | .error e => .error e
    | .ok (some ref) => do return (← insertRef cmp [] ref, true)
    | .ok none => .error .outOfMap

/-- **`got_ref_list`**, into a list that is empty. -/
def gotRefList (store : RefDirs) (refNamespace : Option Bytes) (cmp : RefCmp) :
    Except GotErr (List DiskRef) := do
  let first ← listFirst store cmp refNamespace
  if first.2 then return first.1
  else
    let subdir ← ondiskRefNamespace refNamespace
    let gathered := gatherOnDiskRefs store cmp subdir first.1
    gathered.2
    match store.packedRefs with
    | none => return gathered.1
    | some content => listPacked cmp refNamespace (lines RefStore.isNewline content) gathered.1

/-! ## What there is to list -/

/-- The references in the files of a directory and of those below it. -/
def readDirents (store : RefDirs) (subdir : Bytes) : Dirents → Except GotErr (List DiskRef)
  | .nil => .ok []
  | .reg name rest => do
    let ref ← store.openRef pathRefs subdir name
    return ref.toList ++ (← readDirents store subdir rest)
  | .dir name entries rest => do
    let below ← readDirents store (childPath subdir name) entries
    return below ++ (← readDirents store subdir rest)
  | .other rest => readDirents store subdir rest

/-- The references in the files of a namespace. -/
def readDir (store : RefDirs) (refNamespace : Option Bytes) : Except GotErr (List DiskRef) := do
  let subdir := (← ondiskRefNamespace refNamespace).dropWhile (· = 0x2f)
  match store.opendir (pathRefs ++ 0x2f :: subdir) with
  | none => return []
  | some entries => readDirents store subdir entries

/-- The references in the lines of `packed-refs`, of a namespace. -/
def readPackedRefs (store : RefDirs) (refNamespace : Option Bytes) :
    Except GotErr (List DiskRef) := do
  match store.packedRefs with
  | none => return []
  | some content =>
    let refs ← RefStore.readPacked (lines RefStore.isNewline content)
    return refs.filter (inNamespace refNamespace)

/-- **The references there are**, loose ones and packed ones, if all files and lines can be read. -/
inductive HasRefs (store : RefDirs) : Option Bytes → List DiskRef → List DiskRef → Prop
  /-- All references, and `HEAD`. -/
  | all {refNamespace : Option Bytes} {head : DiskRef} {loose packed : List DiskRef}
      (hall : refNamespace.getD [] = [])
      (hhead : store.openRef (RefStore.getRefsDirPath (text "HEAD")) [] (text "HEAD")
        = .ok (some head))
      (hloose : store.readDir refNamespace = .ok loose)
      (hpacked : store.readPackedRefs refNamespace = .ok packed) :
      HasRefs store refNamespace (head :: loose) packed
  /-- The namespace is the name of a reference. -/
  | one {refname : Bytes} {ref : DiskRef} (hne : refname ≠ [])
      (hone : store.openRef (RefStore.getRefsDirPath refname) [] refname = .ok (some ref)) :
      HasRefs store (some refname) [ref] []
  | below {refname : Bytes} {loose packed : List DiskRef} (hne : refname ≠ [])
      (hone : store.openRef (RefStore.getRefsDirPath refname) [] refname = .error .notRef)
      (hloose : store.readDir (some refname) = .ok loose)
      (hpacked : store.readPackedRefs (some refname) = .ok packed) :
      HasRefs store (some refname) loose packed

/-- **A list as it should be**: in order, with one reference of each name, the loose one if there is
one. -/
structure ListsRefs (cmp : RefCmp) (loose packed refs : List DiskRef) : Prop where
  sorted : refs.Pairwise fun x y => cmp x y = .ok .lt ∨ cmp x y = .ok .eq
  one : ∀ name, refs.filter (·.name = name)
    = (loose.find? (·.name = name) <|> packed.find? (·.name = name)).toList

/-! ## One insertion -/

section Insert

variable {α : Type} [LinearOrder α] {key : DiskRef → α} {cmp : RefCmp}
  {refs inserted : List DiskRef} {new : DiskRef}

/-- **A comparison of some references**, by a key. -/
def ComparesRefs (cmp : RefCmp) (key : DiskRef → α) (refs : List DiskRef) : Prop :=
  ∀ x ∈ refs, ∀ y ∈ refs, cmp x y = .ok (compare (key x) (key y))

/-- Inserting a reference keeps the list sorted, and adds it unless its key is there already. -/
theorem insertRefRev_spec {rev : List DiskRef}
    (hcmp : ∀ re ∈ rev, cmp re new = .ok (compare (key re) (key new)))
    (hrev : rev.Pairwise fun x y => key y < key x) :
    ∃ rev', insertRefRev cmp new rev = .ok rev' ∧ (rev'.Pairwise fun x y => key y < key x)
      ∧ ∀ x, x ∈ rev' ↔ x ∈ rev ∨ x = new ∧ ∀ y ∈ rev, key y ≠ key new := by
  induction rev with
  | nil =>
    refine ⟨[new], rfl, List.pairwise_singleton _ _, fun x => ?_⟩
    rw [List.mem_singleton, or_iff_right List.not_mem_nil]
    exact (and_iff_left fun _ hy => absurd hy List.not_mem_nil).symm
  | cons re rev ih =>
    obtain ⟨hre, hrev'⟩ := List.pairwise_cons.mp hrev
    rw [insertRefRev, hcmp re List.mem_cons_self, ok_bind]
    rcases lt_trichotomy (key re) (key new) with hlt | heq | hgt
    · rw [compare_lt_iff_lt.mpr hlt]
      have hall : ∀ y ∈ re :: rev, key y < key new := by
        intro y hy
        rcases List.mem_cons.mp hy with rfl | hy
        · exact hlt
        · exact lt_trans (hre y hy) hlt
      refine ⟨_, rfl, List.pairwise_cons.mpr ⟨hall, hrev⟩, fun x => ?_⟩
      rw [List.mem_cons, or_comm]
      exact or_congr_right (and_iff_left fun y hy => ne_of_lt (hall y hy)).symm
    · rw [compare_eq_iff_eq.mpr heq]
      refine ⟨_, rfl, hrev, fun x => (or_iff_left ?_).symm⟩
      exact fun h => h.2 re List.mem_cons_self heq
    · rw [compare_gt_iff_gt.mpr hgt]
      obtain ⟨rev', hins, hsorted, hmem⟩ :=
        ih (fun y hy => hcmp y (List.mem_cons_of_mem _ hy)) hrev'
      refine ⟨re :: rev', ?_, List.pairwise_cons.mpr ⟨fun y hy => ?_, hsorted⟩, fun x => ?_⟩
      · dsimp only
        rw [hins]
        rfl
      · rcases (hmem y).mp hy with hy | ⟨rfl, -⟩
        · exact hre y hy
        · exact hgt
      · rw [List.mem_cons, hmem, List.mem_cons, List.forall_mem_cons, or_assoc,
          and_iff_right (ne_of_gt hgt)]

/-- **What is in a list after insertions**: it is in order, with the first of each key. -/
structure Inserted (key : DiskRef → α) (inserted refs : List DiskRef) : Prop where
  sorted : refs.Pairwise fun x y => key x < key y
  mem_iff : ∀ x, x ∈ refs ↔ FirstOf key inserted x

theorem inserted_nil (key : DiskRef → α) : Inserted key [] [] := by
  refine ⟨List.Pairwise.nil, fun x => iff_of_false List.not_mem_nil ?_⟩
  rintro ⟨before, after, h, -⟩
  cases before <;> cases h

/-- **One more insertion.** -/
theorem Inserted.insertRef (h : Inserted key inserted refs)
    (hcmp : ComparesRefs cmp key (inserted ++ [new])) :
    ∃ refs', RefDirs.insertRef cmp refs new = .ok refs'
      ∧ Inserted key (inserted ++ [new]) refs' := by
  have hnew : new ∈ inserted ++ [new] := List.mem_append_right _ List.mem_cons_self
  have hrev : refs.reverse.Pairwise fun x y => key y < key x := List.pairwise_reverse.mpr h.sorted
  have hlast : ∀ re ∈ refs.reverse, cmp re new = .ok (compare (key re) (key new)) := fun re hre =>
    hcmp re (List.mem_append_left _ ((h.mem_iff re).mp (List.mem_reverse.mp hre)).mem) new hnew
  obtain ⟨rev', hins, hsorted, hmem⟩ := insertRefRev_spec hlast hrev
  refine ⟨rev'.reverse, ?_, List.pairwise_reverse.mpr hsorted, fun x => ?_⟩
  · rw [RefDirs.insertRef, hins]
    rfl
  · rw [List.mem_reverse, hmem, List.mem_reverse, h.mem_iff, firstOf_concat]
    refine or_congr_right (and_congr_right fun _ => ⟨fun hno y hy heq => ?_, fun hno y hy => ?_⟩)
    · obtain ⟨z, hz, hzy⟩ := @exists_firstOf _ _ key _ _ hy
      exact hno z (List.mem_reverse.mpr ((h.mem_iff z).mpr hz)) (hzy.trans heq)
    · exact hno y ((h.mem_iff y).mp (List.mem_reverse.mp hy)).mem

/-- **Any number of insertions.** -/
theorem Inserted.foldlM {new : List DiskRef} (h : Inserted key inserted refs)
    (hcmp : ComparesRefs cmp key (inserted ++ new)) :
    ∃ refs', new.foldlM (RefDirs.insertRef cmp) refs = .ok refs'
      ∧ Inserted key (inserted ++ new) refs' := by
  induction new generalizing inserted refs with
  | nil => exact ⟨refs, rfl, (List.append_nil inserted).symm ▸ h⟩
  | cons ref new ih =>
    have hsplit : inserted ++ ref :: new = (inserted ++ [ref]) ++ new := by
      rw [List.append_assoc, List.singleton_append]
    rw [hsplit] at hcmp ⊢
    obtain ⟨refs', hins, h'⟩ := h.insertRef fun x hx y hy =>
      hcmp x (List.mem_append_left new hx) y (List.mem_append_left new hy)
    rw [List.foldlM_cons, hins, ok_bind]
    exact ih h' hcmp

end Insert

/-! ## What is gathered -/

section Gathered

variable {store : RefDirs} {cmp : RefCmp} {refNamespace : Option Bytes}
  {refs refs' loose packed : List DiskRef}

/-- **Files are inserted** as they are read, if all of them can be read. -/
theorem gatherDirents_eq {subdir : Bytes} {entries : Dirents}
    (hread : store.readDirents subdir entries = .ok loose)
    (hins : loose.foldlM (insertRef cmp) refs = .ok refs') :
    store.gatherDirents cmp subdir entries (.ok ()) refs = (refs', .ok ()) := by
  induction entries generalizing subdir loose refs refs' with
  | nil =>
    cases hread
    cases hins
    rfl
  | reg name rest ih =>
    obtain ⟨ref, hopen, hread⟩ := bind_eq_ok_iff.mp hread
    obtain ⟨behind, hrest, hread⟩ := bind_eq_ok_iff.mp hread
    cases hread
    rw [List.foldlM_append] at hins
    obtain ⟨refs'', hone, hins⟩ := bind_eq_ok_iff.mp hins
    have hfile : store.gatherFile cmp subdir name refs = .ok refs'' := by
      rw [gatherFile, hopen, ok_bind]
      cases ref with
      | none => exact hone
      | some ref =>
        rw [Option.toList_some, List.foldlM_cons] at hone
        exact (bind_pure _).symm.trans hone
    rw [gatherDirents, hfile]
    exact ih hrest hins
  | dir name entries rest ihe ih =>
    obtain ⟨below, hbelow, hread⟩ := bind_eq_ok_iff.mp hread
    obtain ⟨behind, hrest, hread⟩ := bind_eq_ok_iff.mp hread
    cases hread
    rw [List.foldlM_append] at hins
    obtain ⟨refs'', hone, hins⟩ := bind_eq_ok_iff.mp hins
    rw [gatherDirents, ihe hbelow hone]
    exact ih hrest hins
  | other rest ih => exact ih hread hins

/-- **Lines are inserted** as they are read, if all of them can be read. -/
theorem listPacked_eq {ls : List Bytes} (hread : RefStore.readPacked ls = .ok packed)
    (hins : (packed.filter (inNamespace refNamespace)).foldlM (insertRef cmp) refs = .ok refs') :
    listPacked cmp refNamespace ls refs = .ok refs' := by
  induction ls generalizing packed refs with
  | nil =>
    cases hread
    exact hins
  | cons line rest ih =>
    rw [RefStore.readPacked] at hread
    obtain ⟨ref, hparse, hread⟩ := bind_eq_ok_iff.mp hread
    rw [listPacked, hparse, ok_bind]
    cases ref with
    | none => exact ih hread hins
    | some ref =>
      obtain ⟨behind, hrest, hread⟩ := bind_eq_ok_iff.mp hread
      cases hread
      dsimp only
      by_cases hin : inNamespace refNamespace ref
      · rw [List.filter_cons_of_pos hin, List.foldlM_cons] at hins
        obtain ⟨refs'', hone, hins⟩ := bind_eq_ok_iff.mp hins
        rw [if_pos hin, hone]
        exact ih hrest hins
      · rw [List.filter_cons_of_neg hin] at hins
        rw [if_neg hin]
        exact ih hrest hins

/-- What is behind the first entry is inserted as it is read. -/
theorem gotRefList_eq {first : List DiskRef}
    (hfirst : store.listFirst cmp refNamespace = .ok (first, false))
    (hloose : store.readDir refNamespace = .ok loose)
    (hpacked : store.readPackedRefs refNamespace = .ok packed)
    (hins : (loose ++ packed).foldlM (insertRef cmp) first = .ok refs) :
    store.gotRefList refNamespace cmp = .ok refs := by
  rw [List.foldlM_append] at hins
  obtain ⟨gathered, hone, hins⟩ := bind_eq_ok_iff.mp hins
  obtain ⟨subdir, hsubdir, hloose⟩ := bind_eq_ok_iff.mp hloose
  dsimp only at hloose
  have hgather : store.gatherOnDiskRefs cmp subdir first = (gathered, .ok ()) := by
    rw [gatherOnDiskRefs]
    cases hopen : store.opendir (pathRefs ++ 0x2f :: subdir.dropWhile (· = 0x2f)) with
    | none =>
      rw [hopen] at hloose
      cases hloose
      cases hone
      rfl
    | some entries =>
      rw [hopen] at hloose
      exact gatherDirents_eq hloose hone
  rw [gotRefList, hfirst, ok_bind, if_neg Bool.false_ne_true, hsubdir, ok_bind, hgather]
  dsimp only
  rw [ok_bind]
  rw [readPackedRefs] at hpacked
  cases hcontent : store.packedRefs with
  | none =>
    rw [hcontent] at hpacked
    cases hpacked
    exact hins
  | some content =>
    rw [hcontent] at hpacked
    obtain ⟨read, hread, hpacked⟩ := bind_eq_ok_iff.mp hpacked
    cases hpacked
    exact listPacked_eq hread hins

/-- **All that there is to list is inserted.** -/
theorem HasRefs.gotRefList {α : Type} [LinearOrder α] {key : DiskRef → α}
    (h : HasRefs store refNamespace loose packed) (hcmp : ComparesRefs cmp key (loose ++ packed)) :
    ∃ refs, store.gotRefList refNamespace cmp = .ok refs ∧ Inserted key (loose ++ packed) refs := by
  obtain ⟨refs, hins, hinserted⟩ :=
    @Inserted.foldlM _ _ _ cmp _ _ (loose ++ packed) (inserted_nil key) hcmp
  refine ⟨refs, ?_, hinserted⟩
  cases h with
  | all hall hhead hloose hpacked =>
    have hfirst : ∀ head, store.openRef (RefStore.getRefsDirPath (text "HEAD")) [] (text "HEAD")
        = .ok (some head) → store.listFirst cmp refNamespace = .ok ([head], false) := by
      intro head hhead
      rw [listFirst, if_pos hall, hhead]
      rfl
    exact gotRefList_eq (hfirst _ hhead) hloose hpacked hins
  | @one refname ref hne hone =>
    have hfirst : store.listFirst cmp (some refname) = .ok ([ref], true) := by
      rw [listFirst, Option.getD_some, if_neg hne]
      dsimp only
      rw [hone]
      rfl
    cases hins
    rw [RefDirs.gotRefList, hfirst]
    rfl
  | @below refname loose packed hne hone hloose hpacked =>
    refine gotRefList_eq ?_ hloose hpacked hins
    rw [listFirst, Option.getD_some, if_neg hne]
    dsimp only
    rw [hone]

end Gathered

/-! ## Names and comparisons -/

section Lists

variable {α : Type} [LinearOrder α] {key : DiskRef → α} {store : RefDirs} {cmp : RefCmp}
  {refNamespace : Option Bytes} {refs loose packed : List DiskRef}

/-- **A list that was inserted is as it should be** if the first references of their keys are the
first of their names. -/
theorem Inserted.lists_iff (h : Inserted key (loose ++ packed) refs)
    (hcmp : ComparesRefs cmp key (loose ++ packed)) : ListsRefs cmp loose packed refs
      ↔ ∀ x, FirstOf key (loose ++ packed) x ↔ FirstOf DiskRef.name (loose ++ packed) x := by
  have hone : ∀ name x, x ∈ (loose.find? (·.name = name) <|> packed.find? (·.name = name))
      ↔ x.name = name ∧ FirstOf DiskRef.name (loose ++ packed) x := by
    intro name x
    rw [Option.orElse_eq_orElse, Option.orElse_eq_or, ← List.find?_append]
    constructor
    · intro hx
      have hname := List.find?_some (Option.mem_def.mp hx)
      obtain rfl : x.name = name := of_decide_eq_true hname
      exact ⟨rfl, firstOf_iff_find?.mpr hx⟩
    · rintro ⟨rfl, hx⟩
      exact firstOf_iff_find?.mp hx
  constructor
  · intro hlists x
    have hx : x ∈ refs.filter (·.name = x.name)
        ↔ x.name = x.name ∧ FirstOf DiskRef.name (loose ++ packed) x := by
      rw [hlists.one, Option.mem_toList]
      exact hone x.name x
    rwa [List.mem_filter, and_iff_left (decide_eq_true rfl), and_iff_right rfl, h.mem_iff] at hx
  · intro hfirst
    refine ⟨List.Pairwise.imp_of_mem (fun hx hy hlt => Or.inl ?_) h.sorted, fun name => ?_⟩
    · rw [hcmp _ ((h.mem_iff _).mp hx).mem _ ((h.mem_iff _).mp hy).mem, compare_lt_iff_lt.mpr hlt]
    · have hnodup : refs.Nodup := h.sorted.imp fun hlt heq => absurd (heq ▸ hlt) (lt_irrefl _)
      have hmem : ∀ x, x ∈ refs.filter (·.name = name)
          ↔ x ∈ (loose.find? (·.name = name) <|> packed.find? (·.name = name)) := by
        intro x
        rw [List.mem_filter, decide_eq_true_iff, h.mem_iff, hfirst, hone, and_comm]
      generalize (loose.find? (·.name = name) <|> packed.find? (·.name = name)) = o at hmem ⊢
      cases o with
      | none =>
        exact List.eq_nil_iff_forall_not_mem.mpr fun x hx =>
          absurd ((hmem x).mp hx) (Option.not_mem_none x)
      | some ref =>
        refine List.perm_singleton.mp ((List.perm_ext_iff_of_nodup (hnodup.filter _)
          (List.nodup_singleton _)).mpr fun x => ?_)
        rw [hmem, Option.mem_some_iff, List.mem_singleton, eq_comm]

/-- **References are listed as they should be** if and only if a reference compares equal to one
that is read before it just when one with its name is read before it. -/
theorem listsRefs_iff (h : HasRefs store refNamespace loose packed)
    (hcmp : ComparesRefs cmp key (loose ++ packed)) :
    (∃ refs, store.gotRefList refNamespace cmp = .ok refs ∧ ListsRefs cmp loose packed refs)
      ↔ ∀ before ref after, loose ++ packed = before ++ ref :: after →
        ((∃ r ∈ before, cmp r ref = .ok .eq) ↔ ∃ r ∈ before, r.name = ref.name) := by
  obtain ⟨refs, hrefs, hinserted⟩ := h.gotRefList hcmp
  have hiff : (∃ refs, store.gotRefList refNamespace cmp = .ok refs
      ∧ ListsRefs cmp loose packed refs) ↔ ListsRefs cmp loose packed refs := by
    refine ⟨?_, fun hlists => ⟨refs, hrefs, hlists⟩⟩
    rintro ⟨refs', hrefs', hlists⟩
    rwa [← Except.ok.inj (hrefs.symm.trans hrefs')] at hlists
  rw [hiff, hinserted.lists_iff hcmp, forall_firstOf_iff]
  refine forall₄_congr fun before ref after hsplit => ?_
  have hkey : ∀ r ∈ before, cmp r ref = .ok .eq ↔ key r = key ref := by
    intro r hr
    rw [hcmp r (hsplit ▸ List.mem_append_left _ hr) ref
      (hsplit ▸ List.mem_append_right _ List.mem_cons_self), Except.ok.injEq, compare_eq_iff_eq]
  exact iff_congr (exists_congr fun r => and_congr_right fun hr => (hkey r hr).symm) Iff.rfl

/-! ## The two comparisons -/

/-- **Names are compared** as paths are. -/
theorem gotRefCmpByName_compares (refs : List DiskRef) :
    ComparesRefs gotRefCmpByName RefStore.refKey refs := by
  intro x _ y _
  rw [gotRefCmpByName, RefStore.gotPathCmp_namePath]
  rcases lt_trichotomy (RefStore.refKey x) (RefStore.refKey y) with h | h | h
  · rw [linCmp_eq_lt_iff.mpr h, compare_lt_iff_lt.mpr h]
  · rw [linCmp_eq_eq_iff.mpr h, compare_eq_iff_eq.mpr h]
  · rw [linCmp_eq_gt_iff.mpr h, compare_gt_iff_gt.mpr h]

end Lists

/-! ## A tag that was moved -/

/-- A tag that was moved after it was packed. -/
def movedTag : DiskRef := ⟨text "refs/tags/v1", .oid ObjectFile.someId, false⟩

/-- What it was before. -/
def packedTag : DiskRef :=
  ⟨text "refs/tags/v1", .oid ⟨List.replicate 20 0xcd, length_otherId⟩, true⟩

/-- The repository of that tag: the file says one thing, the packed line another. -/
def movedTagDirs : RefDirs where
  files := [(text "/refs/tags/v1", gotSha1DigestToStr someId ++ [0x0a])]
  packedRefs := some (RefStore.packedLine packedTag.name ⟨List.replicate 20 0xcd, length_otherId⟩)
  opendir path := if path = text "/refs/tags" then some (.reg (text "v1") .nil) else none

/-- The repository has the tag twice. -/
theorem movedTagDirs_hasRefs :
    HasRefs movedTagDirs (some (text "refs/tags")) [movedTag] [packedTag] := by
  refine .below (by decide) ?_ ?_ ?_
  · decide +kernel
  · decide +kernel
  · decide +kernel

/-- The theorem at work on a packed tag that was moved. -/
theorem listsRefs_iff_movedTag :
    ∃ refs, movedTagDirs.gotRefList (some (text "refs/tags")) gotRefCmpByName = .ok refs
      ∧ ListsRefs gotRefCmpByName [movedTag] [packedTag] refs := by
  refine (listsRefs_iff movedTagDirs_hasRefs (gotRefCmpByName_compares _)).mpr ?_
  intro before ref after hsplit
  have hall : ∀ x ∈ [movedTag] ++ [packedTag], ∀ y ∈ [movedTag] ++ [packedTag],
      gotRefCmpByName x y = .ok .eq ∧ x.name = y.name := by
    decide +kernel
  refine exists_congr fun r => and_congr_right fun hr => ?_
  have h := hall r (hsplit ▸ List.mem_append_left _ hr) ref
    (hsplit ▸ List.mem_append_right _ List.mem_cons_self)
  exact iff_of_true h.1 h.2

/-- The later tag has another time. -/
def movedTagTime (ref : DiskRef) : Except GotErr ℤ :=
  .ok (if ref.target = movedTag.target then 1600000001 else 1600000000)

/-- **A tag that was moved** is listed twice. -/
theorem not_listsRefs_movedTag : ¬ ∀ (store : RefDirs) (refNamespace : Option Bytes)
    (time : DiskRef → Except GotErr ℤ) (key : DiskRef → ℕ) (loose packed : List DiskRef),
    HasRefs store refNamespace loose packed →
      ComparesRefs (gotRefCmpTags time) key (loose ++ packed) →
      ∃ refs, store.gotRefList refNamespace (gotRefCmpTags time) = .ok refs
        ∧ ListsRefs (gotRefCmpTags time) loose packed refs := by
  intro h
  obtain ⟨refs, hrefs, hlists⟩ := h movedTagDirs _ movedTagTime
    (fun ref => if ref.isPacked then 1 else 0) _ _ movedTagDirs_hasRefs
    (by unfold ComparesRefs; decide +kernel)
  have hboth : movedTagDirs.gotRefList (some (text "refs/tags")) (gotRefCmpTags movedTagTime)
      = .ok [movedTag, packedTag] := by
    decide +kernel
  obtain rfl := Except.ok.inj (hrefs.symm.trans hboth)
  exact absurd (hlists.one (text "refs/tags/v1")) (by decide +kernel)

end RefDirs

end Got

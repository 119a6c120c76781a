import Got.Worktree.WriteTreeCorrect

/-!
# When a commit applies its files

The tree of a commit is to be that of the branch head with the files of the
commit applied, and all of them (`AppliesExactly`). The code promises that for
every run of `write_tree` that succeeds. It holds exactly when each file has a
place in the tree of the branch head (`writeRootTree_applies_iff`): no file of
the head may be on the way to an added file, even if it is deleted in the same
commit, and a modified or deleted file must be in the head as it was when it
was changed.
-/

namespace Got

variable {cts : List Commitable} {b : List Name}

/-! ## Files applied exactly -/

/-- The entries of a tree, if it is one. -/
def Object.tree? (o : Object) : Option (List TreeEntry) := (gotObjectOpenAsTree o).toOption

/-- **All files of a commit are applied**, and nothing else is. The files of
the new tree are those of the base tree with the additions and modifications
set and the deletions removed; what is at paths that lead to none of the files
is unchanged, submodules and whole subtrees included; no subtree has become
empty; and each file was found a place, and was reported. -/
structure AppliesExactly (baseTree : Object) (cts : List Commitable) (new : NewTree) : Prop where
  files : ∀ path, filesOf new.1.tree? path =
    match cts.find? (fun ct => ct.names = path) with
    | some ct => ct.effect
    | none => filesOf baseTree.tree? path
  untouched : ∀ path te, (∀ ct ∈ cts, ¬path <+: ct.names) → entryOf baseTree.tree? path = some te →
    ∃ te', entryOf new.1.tree? path = some te' ∧ te'.id = te.id ∧ kindOf te'.mode = kindOf te.mode
  nonempty : ∀ path te, entryOf new.1.tree? path = some te → te.subtree = some [] →
    ∃ te', entryOf baseTree.tree? path = some te' ∧ te'.subtree = some []
  placed : ∀ ct ∈ cts, ct ∈ new.2.2

/-- **The place of a file** in the base tree: where it is added, there is no
file on the way; where it is modified or deleted, it is there, not as a
submodule, with the blob it had when it was changed. -/
def Placeable (baseTree : Object) (ct : Commitable) : Prop :=
  Fits baseTree.tree? ct.names ct

theorem distinct_of_nodup (h : (cts.map Commitable.names).Nodup) : Distinct cts :=
  fun _ hct _ hct' heq => List.inj_on_of_nodup_map h hct hct' heq

/-- **A commit applies its files exactly if each of them has a place** in the tree it is made from.
Files without one are dropped without an error: the loop over the base tree takes up what it finds
among its entries, and an addition below an entry that is a file is left to that loop, which does
not look at it. That is a condition on the base tree and the files alone, and by induction on the
depth it is the one of each subtree. -/
theorem writeRootTree_applies_iff {head : Object} {new : NewTree}
    (hnodup : (cts.map Commitable.names).Nodup) (h : writeRootTree head cts = .ok new) :
    AppliesExactly head cts new ↔ ∀ ct ∈ cts, Placeable head ct := by
  obtain ⟨es, ho, hw⟩ := bind_eq_ok_iff.mp h
  obtain ⟨id, n, after⟩ := new
  have htree : head.tree? = some es := by rw [Object.tree?, ho]; rfl
  obtain ⟨es', ho', hcontent, -, hreported⟩ :=
    writeTree_spec (distinct_of_nodup hnodup) (depth cts + 1) [] (some es) [] id n after
      (fun es₁ h₁ => by cases h₁; exact open_order ho) (fun _ _ _ _ _ => List.not_mem_nil) hw
  have htree' : id.tree? = some es' := by rw [Object.tree?, ho']; rfl
  have hfits : ∀ ct, ct ∈ after ↔ ct ∈ cts ∧ Placeable head ct := by
    intro ct
    rw [hreported, Placeable, htree]
    constructor
    · rintro (hnil | ⟨hct, m, rest, hn, hf⟩)
      · exact absurd hnil List.not_mem_nil
      · exact ⟨hct, by rwa [hn]⟩
    · rintro ⟨hct, hf⟩
      obtain ⟨m, rest, hn⟩ := List.exists_cons_of_ne_nil ct.names_ne
      exact Or.inr ⟨hct, m, rest, hn, by rwa [hn] at hf⟩
  constructor
  · exact fun happlies ct hct => ((hfits ct).mp (happlies.placed ct hct)).2
  · intro hall
    refine ⟨fun path => ?_, fun path te huntouched hte => ?_, fun path te hte hempty => ?_,
      fun ct hct => (hfits ct).mpr ⟨hct, hall ct hct⟩⟩
    · show filesOf id.tree? path = _
      rw [htree', htree]
      cases hfind : cts.find? (fun ct => ct.names = path) with
      | some ct =>
        obtain rfl : ct.names = path := by simpa using List.find?_some hfind
        have hct := List.mem_of_find?_eq_some hfind
        have hf := hall ct hct
        rw [Placeable, htree] at hf
        obtain ⟨m, rest, hn⟩ := List.exists_cons_of_ne_nil ct.names_ne
        rw [hn] at hf ⊢
        exact (hcontent.applied ct hct m rest hn hf).1
      | none =>
        refine hcontent.others path (fun ct hct hn _ => ?_)
        exact List.find?_eq_none.mp hfind ct hct (decide_eq_true hn)
    · show ∃ te', entryOf id.tree? path = some te' ∧ _
      rw [htree']
      rw [htree] at hte
      exact hcontent.untouched path te huntouched hte
    · rw [show (id, n, after).1 = id from rfl, htree'] at hte
      rw [htree]
      exact hcontent.nonempty path te hte hempty

/-! ## A file replaced by a directory -/

namespace Replaced

def alpha : Name := ⟨['a', 'l', 'p', 'h', 'a'], by decide⟩

def beta : Name := ⟨['b', 'e', 't', 'a'], by decide⟩

/-- The blob of a file. -/
def blob : Object := .blob [0x78]

/-- A tree with the file `alpha`. -/
def head : Object :=
  .tree (.ofList [{ mode := GOT_DEFAULT_FILE_MODE, name := alpha, id := blob }])

/-- The file `alpha` is deleted. -/
def deleted : Commitable where
  pathPrefix := []
  relpath := [alpha]
  mode := GOT_DEFAULT_FILE_MODE
  status := .delete
  stagedStatus := .noChange
  blobId := none
  baseBlobId := some blob
  stagedBlobId := none
  baseCommitId := none
  relpath_ne := List.cons_ne_nil _ _
  commitStatus := by decide

/-- The file `alpha/beta` is added. -/
def added : Commitable where
  pathPrefix := []
  relpath := [alpha, beta]
  mode := GOT_DEFAULT_FILE_MODE
  status := .add
  stagedStatus := .noChange
  blobId := some blob
  baseBlobId := none
  stagedBlobId := none
  baseCommitId := none
  relpath_ne := List.cons_ne_nil _ _
  commitStatus := by decide

end Replaced

open Replaced in
/-- **Replacing a file by a directory loses the directory**: the added file is
dropped, as `alpha` was in the base tree, and then `alpha` is deleted. -/
theorem replaced_not_appliesExactly :
    writeRootTree head [deleted, added] = .ok (.tree .nil, 0, [deleted])
      ∧ ¬AppliesExactly head [deleted, added] (.tree .nil, 0, [deleted]) := by
  refine ⟨rfl, fun h => ?_⟩
  have := h.placed added (List.mem_cons_of_mem _ List.mem_cons_self)
  revert this
  decide

/-! ## Files of several directories -/

namespace Several

open Replaced (alpha beta)

def docs : Name := ⟨['d', 'o', 'c', 's'], by decide⟩

def src : Name := ⟨['s', 'r', 'c'], by decide⟩

/-- A file in a tree. -/
def file (name : Name) (content : Bytes) : TreeEntry :=
  { mode := GOT_DEFAULT_FILE_MODE, name, id := .blob content }

/-- A directory in a tree. -/
def dir (name : Name) (entries : List TreeEntry) : TreeEntry :=
  { mode := S_IFDIR, name, id := .tree (.ofList entries) }

/-- A tree with the files `src/alpha` and `src/beta`. -/
def head : Object := .tree (.ofList [dir src [file alpha [1], file beta [2]]])

/-- A file which is not staged, with its blob in the work tree before and after the commit. -/
def commitable (status : Status) (relpath : List Name) (baseBlobId blobId : Option Object)
    (relpath_ne : relpath ≠ []) (commitStatus : CommitStatus status .noChange) : Commitable where
  pathPrefix := []
  relpath
  mode := GOT_DEFAULT_FILE_MODE
  status
  stagedStatus := .noChange
  blobId
  baseBlobId
  stagedBlobId := none
  baseCommitId := none
  relpath_ne
  commitStatus

/-- The file `docs/alpha/beta` is added, with both of its directories. -/
def added : Commitable :=
  commitable .add [docs, alpha, beta] none (some (.blob [4])) (by decide) (by decide)

/-- The file `src/alpha` is modified. -/
def modified : Commitable :=
  commitable .modify [src, alpha] (some (.blob [1])) (some (.blob [3])) (by decide) (by decide)

/-- The file `src/beta` is deleted, beside one that is modified. -/
def deleted : Commitable :=
  commitable .delete [src, beta] (some (.blob [2])) none (by decide) (by decide)

/-- A tree with the files `docs/alpha/beta` and `src/alpha`. -/
def after : Object :=
  .tree (.ofList [dir docs [dir alpha [file beta [4]]], dir src [file alpha [3]]])

/-- On the way to the added file there is nothing. -/
theorem placeable_added : Placeable head added := by
  show ∀ dirs n rest, [docs, alpha, beta] = dirs ++ n :: rest → filesOf head.tree? dirs = none
  intro dirs n rest h
  have hprefix : dirs <+: [docs, alpha, beta] := ⟨n :: rest, h.symm⟩
  have hnone : ∀ path ∈ [docs, alpha, beta].inits, filesOf head.tree? path = none := by decide
  exact hnone dirs ((List.mem_inits _ _).mpr hprefix)

end Several

open Several in
/-- **A commit of three files**: one is added, with the directories it is in, and of two others
in one directory one is modified and the other one is deleted. -/
theorem several_appliesExactly : ([added, modified, deleted].map Commitable.names).Nodup
    ∧ writeRootTree head [added, modified, deleted] = .ok (after, 2, [added, modified, deleted])
    ∧ AppliesExactly head [added, modified, deleted] (after, 2, [added, modified, deleted]) := by
  have hnodup : ([added, modified, deleted].map Commitable.names).Nodup := by decide
  refine ⟨hnodup, rfl, (writeRootTree_applies_iff hnodup rfl).mpr (fun ct hct => ?_)⟩
  rcases List.mem_cons.mp hct with rfl | hct
  · exact placeable_added
  rcases List.mem_pair.mp hct with rfl | rfl
  · exact ⟨some .regular, .blob [1], rfl, by decide, rfl⟩
  · exact ⟨some .regular, .blob [2], rfl, by decide, rfl⟩

end Got

import Got.FileIndex.DiffLaw
import Got.Object

/-!
# Comparing the file index with a tree

This is what an update of a work tree is made of: the file index is compared
with a tree of the repository, and what is found is checked out, removed or
merged by the callbacks.

A submodule in the tree is not to be reported, as there is nothing that could be
checked out. But where one comes before the entry of the index that is at hand,
the source does not ask, as it does elsewhere (`submodule_not_reportsAll`).
-/

namespace Got

section Loop

variable (cb : DiffCb TreeEntry)

/-- The rest of **`walk_tree`**, after which the next entry of the tree is at
hand: go down into a directory. -/
def walkTree (diff : DiffLoop TreeEntry) (te : TreeEntry) (path : List Name) (ie : Option ℕ)
    (s : WalkState TreeEntry) : Except GotErr (Option ℕ × WalkState TreeEntry) :=
  if ¬te.isSubmodule ∧ S_ISDIR te.mode then do
    let subtree ← gotObjectOpenAsTree te.id
    diff subtree (path ++ [te.name]) ie s
  else .ok (ie, s)

/-- **`diff_fileindex_tree`**, if no name of an entry is given. The path of an
entry of the tree is compared with a slash in front of it in the root. -/
def diffFileindexTree : ℕ → DiffLoop TreeEntry
  | 0, _, _, _, _ => .error .fuel
  | fuel + 1, te :: tree, path, some ie, s =>
    match cmpItem (s.fi.entry ie) path te.name with
    | .eq => do
      let child := gotPathIsChild (s.fi.entry ie).path (relPath path)
      let s ← s.reportIf (child && !te.isSubmodule) cb (.oldNew ie te path)
      let (ie, s) ← walkTree (diffFileindexTree fuel) te path (s.fi.walkFileindex ie) s
      diffFileindexTree fuel tree path ie s
    | .lt => do
      let next := s.fi.walkFileindex ie
      let child := gotPathIsChild (s.fi.entry ie).path (relPath path)
      let s ← s.reportIf child cb (.old ie path)
      diffFileindexTree fuel (te :: tree) path next s
    | .gt => do
      -- whether the entry of the tree is a submodule is not asked here
      let s ← s.report cb (.new te path)
      let (ie, s) ← walkTree (diffFileindexTree fuel) te path (some ie) s
      diffFileindexTree fuel tree path ie s
  | fuel + 1, [], path, some ie, s =>
    if gotPathIsChild (s.fi.entry ie).path (relPath path) then do
      let next := s.fi.walkFileindex ie
      let s ← s.report cb (.old ie path)
      diffFileindexTree fuel [] path next s
    else .ok (some ie, s)
  | fuel + 1, te :: tree, path, none, s => do
    let s ← s.reportIf (!te.isSubmodule) cb (.new te path)
    let (ie, s) ← walkTree (diffFileindexTree fuel) te path none s
    diffFileindexTree fuel tree path ie s
  | _ + 1, [], _, none, s => .ok (none, s)

/-- **`got_fileindex_diff_tree`** -/
def gotFileindexDiffTree (fuel : ℕ) (fi : Fileindex) (tree : List TreeEntry) (path : List Name) :
    Except GotErr (WalkState TreeEntry) := do
  let (_, s) ← diffFileindexTree cb fuel tree path (fi.walkStart (relPath path)) ⟨fi, []⟩
  return s

end Loop

/-- What is below an entry of a tree. -/
def openSubtree (_ : List Name) (te : TreeEntry) : Except GotErr (Option (List TreeEntry)) :=
  if ¬te.isSubmodule ∧ S_ISDIR te.mode then (gotObjectOpenAsTree te.id).map some else .ok none

variable {cb : DiffCb TreeEntry}

/-- Walking below an entry through `open_subtree` is the walk of the subtree by the source. -/
theorem walkBelow_openSubtree (diff : DiffLoop TreeEntry) (te : TreeEntry) (p : List Name)
    (ie : Option ℕ) (s : WalkState TreeEntry) :
    walkBelow TreeEntry.name openSubtree diff te p ie s = walkTree diff te p ie s := by
  unfold walkBelow walkTree openSubtree
  split
  · cases gotObjectOpenAsTree te.id <;> rfl
  · rfl

/-- **The comparison with a tree is a walk over both.** -/
theorem mergeWalk_diffFileindexTree :
    MergeWalk cb TreeEntry.name TreeEntry.isSubmodule openSubtree (diffFileindexTree cb) where
  done _ _ _ := rfl
  done_of_not_child fuel p a s hchild := by
    rw [diffFileindexTree, if_neg (by simp [hchild])]
  old fuel items p a next s s' hchild hcmp hreport hnext _ := by
    cases items with
    | nil =>
      rw [diffFileindexTree, if_pos hchild, hreport, ok_bind, hnext]
    | cons te tree =>
      rw [diffFileindexTree, hcmp te rfl]
      dsimp only
      rw [hchild, WalkState.reportIf, if_pos rfl, hreport, ok_bind, hnext]
  oldNew fuel te tree p a s s' hchild hcmp hreport := by
    rw [diffFileindexTree, hcmp]
    dsimp only
    rw [hchild, Bool.true_and, hreport, ok_bind, walkBelow_openSubtree]
  new fuel te tree p a s s' hcmp hreport := by
    rw [diffFileindexTree, hcmp]
    dsimp only
    rw [hreport, ok_bind, walkBelow_openSubtree]
  newAlone fuel te tree p s s' hreport := by
    rw [diffFileindexTree, hreport, ok_bind, walkBelow_openSubtree]

/-- A subtree that is opened is in the order of the names. -/
theorem openSubtree_sorted (p : List Name) (te : TreeEntry) (tree : List TreeEntry)
    (h : openSubtree p te = .ok (some tree)) : NameOrder tree := by
  unfold openSubtree at h
  split at h
  · cases hopen : gotObjectOpenAsTree te.id with
    | error e => rw [hopen] at h; exact nomatch h
    | ok tree' =>
      rw [hopen] at h
      obtain rfl := Option.some.inj (Except.ok.inj h)
      exact open_order hopen
  · exact nomatch h

/-- **When all is reported** by a comparison with a tree, of which all
directories can be opened. -/
theorem gotFileindexDiffTree_law {fi : Fileindex} {tree : List TreeEntry} {path : List Name}
    {t : Listing TreeEntry} {fuel : ℕ} (hcb : ∀ rs r fi, ∃ ops, cb rs r fi = .ok ops)
    (hfi : fi.Ordered) (hshort : ∀ ie ∈ fi.entries, (fi.entry ie).path.length ≤ MAX_PATH_LEN)
    (htree : NameOrder tree) (hopens : t.Opens TreeEntry.name openSubtree path tree)
    (hfuel : fi.entries.length + t.size < fuel) :
    ∃ s, gotFileindexDiffTree cb fuel fi tree path = .ok s
      ∧ (fi.ReportsAll TreeEntry.name path
          ((t.flat TreeEntry.name path).filter (fun x => !x.2.isSubmodule)) s.reported
        ↔ fi.SeesAll TreeEntry.isSubmodule path (t.flat TreeEntry.name path)) := by
  obtain ⟨ie, s, hok, hlaw⟩ := Fileindex.law_iff mergeWalk_diffFileindexTree hcb hfi hshort
    (hopens.sorted openSubtree_sorted htree).2 hopens hfuel
  exact ⟨s, by rw [gotFileindexDiffTree, hok]; rfl, hlaw⟩

end Got

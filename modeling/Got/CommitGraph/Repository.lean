import Mathlib.Data.Finset.Basic
import Mathlib.Logic.Relation
import Got.Object

/-!
# A repository as the commit graph reads it

The history of a repository may be incomplete, and what is known of a commit
is what is read when it is opened. So commits are looked up by their ids here,
which are of any type, and opening one can fail; `Complete` says of a set of
commits that all of them can be opened and that it has no gaps. A tree is its
own id, as everywhere; one that is missing is `Object.foreign`.

Objects are stored in a pack file or each in a file of its own. A process of
its own reads pack files, and follows the history of a path as far as it finds
it in the pack (`Got.CommitGraph.ReadPack`). Which objects there are in the pack
makes no difference to anything else.

What is at a path may have changed with a commit (`detectChangedPath`); this
is found out by comparing trees along the path, and only as far down as they
differ.
-/

namespace Got

variable {ι : Type}

/-- `struct got_commit_object`, as far as it is used here. -/
structure CommitObject (ι : Type) where
  treeId : Object
  parentIds : List ι
  committerTime : ℤ
  /-- `GOT_COMMIT_FLAG_PACKED`: the commit was read from a pack. -/
  flagPacked : Bool

/-- **A repository**: how commits are opened, and what the index of the pack
has. -/
structure Repository (ι : Type) where
  gotObjectOpenAsCommit : ι → Except GotErr (CommitObject ι)
  packidxHasCommit : ι → Bool
  packidxHasTree : Object → Bool

namespace Repository

variable (repo : Repository ι)

/-- **The id of what is at a path** in the tree of a commit. -/
def gotObjectIdByPath (commitId : ι) (path : List Name) : Except GotErr Object := do
  let commit ← repo.gotObjectOpenAsCommit commitId
  if path = [] then .ok commit.treeId
  else
    let tree ← gotObjectOpenAsTree commit.treeId
    idBySegments tree path

end Repository

/-! ## Changes of a path -/

/-- File mode bits that are of no interest are dropped before modes are
compared. -/
def normalizeModeForComparison (mode : UInt32) : UInt32 :=
  if S_ISDIR mode then mode &&& S_IFDIR
  else if S_ISLNK mode then mode &&& S_IFLNK
  else mode &&& S_IXUSR

/-- The loop of `got_object_tree_path_changed` over the segments of a path.
The second tree is missing once an entry was not found in it. -/
def treePathChangedLoop (tree1 : List TreeEntry) (tree2 : Option (List TreeEntry)) :
    List Name → Except GotErr Bool
  | [] => .ok false
  | seg :: segs =>
    match findEntryByName tree1 seg.val with
    | none => .error .noObj
    | some te1 =>
      match tree2.bind (findEntryByName · seg.val) with
      | none =>
        if segs = [] then .ok true
        else do
          let next1 ← gotObjectOpenAsTree te1.id
          treePathChangedLoop next1 none segs
      | some te2 =>
        if normalizeModeForComparison te1.mode ≠ normalizeModeForComparison te2.mode then .ok true
        else if te1.id = te2.id then .ok false
        else if segs = [] then .ok true
        else do
          let next1 ← gotObjectOpenAsTree te1.id
          let next2 ← gotObjectOpenAsTree te2.id
          treePathChangedLoop next1 (some next2) segs

/-- **`got_object_tree_path_changed`**, which does not support the root. -/
def gotObjectTreePathChanged (tree1 tree2 : List TreeEntry) (path : List Name) :
    Except GotErr Bool :=
  if path = [] then .error .badPath else treePathChangedLoop tree1 (some tree2) path

/-- **Whether a commit changed what is at a path.** The root always
changes. -/
def detectChangedPath (repo : Repository ι) (commit : CommitObject ι) (commitId : ι)
    (path : List Name) : Except GotErr Bool :=
  if path = [] then .ok true
  else
    match commit.parentIds.head? with
    | none =>
      match repo.gotObjectIdByPath commitId path with
      | .error .noTreeEntry => .ok false
      | .error e => .error e
      | .ok _ => .ok true -- the path was created in this commit
    | some pid => do
      let tree ← gotObjectOpenAsTree commit.treeId
      let pcommit ← repo.gotObjectOpenAsCommit pid
      let ptree ← gotObjectOpenAsTree pcommit.treeId
      gotObjectTreePathChanged tree ptree path

theorem detectChangedPath_root (repo : Repository ι) (commit : CommitObject ι) (commitId : ι) :
    detectChangedPath repo commit commitId [] = .ok true := rfl

/-! ## Histories -/

namespace Repository

variable {repo : Repository ι}

/-- **A parent of a commit.** -/
def IsParent (repo : Repository ι) (commitId pid : ι) : Prop :=
  ∃ commit, repo.gotObjectOpenAsCommit commitId = .ok commit ∧ pid ∈ commit.parentIds

/-- What history leads to from a commit, the commit itself included. -/
def Reaches (repo : Repository ι) : ι → ι → Prop := Relation.ReflTransGen repo.IsParent

/-- **A complete history**: all its commits can be opened, and their parents
are part of it. -/
def Complete (repo : Repository ι) (ids : Finset ι) : Prop :=
  ∀ commitId ∈ ids, ∃ commit, repo.gotObjectOpenAsCommit commitId = .ok commit
    ∧ ∀ pid ∈ commit.parentIds, pid ∈ ids

/-- No commit is its own ancestor. -/
def Acyclic (repo : Repository ι) : Prop :=
  ∀ commitId, ¬Relation.TransGen repo.IsParent commitId commitId

/-- A set closed under parents holds everything that is reached from one of its members. -/
theorem Complete.reaches {ids : Finset ι} (h : repo.Complete ids) {commitId id : ι}
    (hc : commitId ∈ ids) (hr : repo.Reaches commitId id) : id ∈ ids := by
  induction hr with
  | refl => exact hc
  | tail _ hp ih =>
    obtain ⟨commit, hopen, hmem⟩ := hp
    obtain ⟨commit', hopen', hids⟩ := h _ ih
    rw [hopen] at hopen'
    obtain rfl := Except.ok.inj hopen'
    exact hids _ hmem

/-- **The first-parent chain of a commit.** -/
inductive FirstParentChain (repo : Repository ι) : ι → List ι → Prop
  | root {commitId : ι} {commit : CommitObject ι} :
    repo.gotObjectOpenAsCommit commitId = .ok commit → commit.parentIds = [] →
    FirstParentChain repo commitId [commitId]
  | cons {commitId pid : ι} {commit : CommitObject ι} {rest chain : List ι} :
    repo.gotObjectOpenAsCommit commitId = .ok commit → commit.parentIds = pid :: rest →
    FirstParentChain repo pid chain → FirstParentChain repo commitId (commitId :: chain)

theorem FirstParentChain.ne_nil {commitId : ι} {chain : List ι}
    (h : FirstParentChain repo commitId chain) : chain ≠ [] := by
  cases h <;> exact List.cons_ne_nil _ _

/-- If parents have larger ids, there are no cycles. -/
theorem acyclic_of_lt [Preorder ι] (h : ∀ commitId pid, repo.IsParent commitId pid →
    commitId < pid) : repo.Acyclic := by
  have hlt : ∀ {a b}, Relation.TransGen repo.IsParent a b → a < b := by
    intro a b hab
    induction hab with
    | single hp => exact h _ _ hp
    | tail _ hp ih => exact ih.trans (h _ _ hp)
  exact fun commitId hc => lt_irrefl _ (hlt hc)

/-- The repository of a list of commits, whose ids are their numbers. -/
def ofCommits (commits : List (CommitObject ℕ)) : Repository ℕ where
  gotObjectOpenAsCommit id :=
    match commits[id]? with
    | some commit => .ok commit
    | none => .error .noObj
  packidxHasCommit _ := false
  packidxHasTree _ := false

end Repository

/-- A commit without files. -/
def emptyCommit (time : ℤ) (parentIds : List ℕ) : CommitObject ℕ :=
  ⟨.tree .nil, parentIds, time, false⟩

end Got

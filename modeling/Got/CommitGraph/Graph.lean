import Got.CommitGraph.Idset
import Got.CommitGraph.ReadPack

/-!
# The commit graph

A commit graph is what history is traversed with. It has a set of all commits
that were traversed and a set of open branches, which are commits that are
known but were not traversed yet. A sweep (`fetchCommitsFromOpenBranches`) opens the
commits of all open branches, the branch tips, and then goes through them one
after the other: a tip that changed the path of interest is put into a list,
from which the user of the graph gets one commit after the other, and its parents
become open branches in its place.

With a path, or with first parents only, not all parents do
(`advanceBranch`).
What happens on an error is that the graph is closed, so there is no graph
then.
-/

namespace Got

variable {ι : Type}

/-- `struct got_commit_graph_node` -/
structure CommitGraphNode (ι : Type) where
  id : ι
  timestamp : ℤ
  deriving DecidableEq

/-- `struct got_commit_graph_branch_tip` -/
structure BranchTip (ι : Type) where
  commitId : ι
  commit : CommitObject ι

/-! ## The list of nodes -/

/-- The loop of `add_node_to_iter_list`, which looks at what comes behind a
node. -/
def insertBehind (node : CommitGraphNode ι) :
    List (CommitGraphNode ι) → List (CommitGraphNode ι)
  | [] => [node]
  | [n] => [n, node]
  | n :: next :: rest =>
    if node.timestamp ≥ next.timestamp then n :: node :: next :: rest
    else n :: insertBehind node (next :: rest)

/-- A node that is put behind others is in the list with them. -/
theorem perm_insertBehind (node : CommitGraphNode ι) (l : List (CommitGraphNode ι)) :
    (insertBehind node l).Perm (node :: l) := by
  fun_induction insertBehind node l with
  | case1 => exact List.Perm.refl _
  | case2 n => exact List.Perm.swap node n []
  | case3 n next rest _ => exact List.Perm.swap node n (next :: rest)
  | case4 n next rest _ ih => exact (ih.cons n).trans (List.Perm.swap node n (next :: rest))

/-- **The first node stays the first.** -/
theorem head?_insertBehind (node n : CommitGraphNode ι) (rest : List (CommitGraphNode ι)) :
    (insertBehind node (n :: rest)).head? = some n := by
  cases rest with
  | nil => rfl
  | cons next rest =>
    rw [insertBehind]
    split <;> rfl

/-- A node goes behind the only one. -/
theorem insertBehind_of_length_le_one (node : CommitGraphNode ι) {l : List (CommitGraphNode ι)}
    (h : l.length ≤ 1) : insertBehind node l = l ++ [node] := by
  match l with
  | [] => rfl
  | [n] => rfl
  | _ :: _ :: _ => simp at h

variable [LinearOrder ι]

/-- **A commit graph.** -/
structure CommitGraph (ι : Type) [LinearOrder ι] where
  /-- The set of all commits we have traversed. -/
  nodeIds : ObjectIdset ι
  /-- The flag `GOT_COMMIT_GRAPH_FIRST_PARENT_TRAVERSAL`. -/
  firstParentTraversal : Bool
  /-- Known commits which we have not yet traversed. -/
  openBranches : ObjectIdset ι
  /-- Path of tree entry of interest. -/
  path : List Name
  /-- Nodes which will be passed to the user next. -/
  iterList : List (CommitGraphNode ι)

namespace CommitGraph

/-- `got_commit_graph_open` -/
def gotCommitGraphOpen (path : List Name) (firstParentTraversal : Bool) : CommitGraph ι :=
  ⟨.alloc, firstParentTraversal, .alloc, path, []⟩

/-- **`add_node_to_iter_list`** -/
def addNodeToIterList (graph : CommitGraph ι) (node : CommitGraphNode ι) : CommitGraph ι :=
  { graph with iterList := insertBehind node graph.iterList }

/-- `add_node` -/
def addNode (graph : CommitGraph ι) (commitId : ι) : Except GotErr (CommitGraph ι) := do
  let nodeIds ← graph.nodeIds.add commitId
  return { graph with nodeIds }

/-- `got_object_idset_add` on the open branches. -/
def openBranch (graph : CommitGraph ι) (commitId : ι) : Except GotErr (CommitGraph ι) := do
  let openBranches ← graph.openBranches.add commitId
  return { graph with openBranches }

/-- `close_branch` -/
def closeBranch (graph : CommitGraph ι) (commitId : ι) : Except GotErr (CommitGraph ι) :=
  match graph.openBranches.remove commitId with
  | .ok openBranches => .ok { graph with openBranches }
  | .error .noObj => .ok graph
  | .error e => .error e

/-! ## Advancing a branch -/

/-- The loop of `packed_first_parent_traversal`: the number of commits traversed
and the graph. -/
def addTraversedCommits (graph : CommitGraph ι) (ncommits : ℕ) :
    List ι → Except GotErr (ℕ × CommitGraph ι)
  | [] => .ok (ncommits, graph)
  | qid :: rest =>
    if graph.openBranches.contains qid then addTraversedCommits graph ncommits rest
    else if graph.nodeIds.contains qid then addTraversedCommits graph ncommits rest
    else if rest = [] then do
      -- the last commit is the new branch tip
      let graph ← graph.openBranch qid
      return (ncommits + 1, graph)
    else do
      let graph ← graph.addNode qid
      addTraversedCommits graph (ncommits + 1) rest

/-- `packed_first_parent_traversal` -/
def packedFirstParentTraversal (repo : Repository ι) (fuel : ℕ) (graph : CommitGraph ι)
    (commitId : ι) : Except GotErr (ℕ × CommitGraph ι) := do
  let traversed ← repo.gotTraversePackedCommits fuel commitId graph.path
  graph.addTraversedCommits 0 traversed

/-- What the parents of a merge commit have at the path of interest. -/
inductive MergedContent (ι : Type)
  /-- A branch has created the merged content. -/
  | created (qid : ι)
  /-- None has, and whether they differ. -/
  | compared (branchesDiffer : Bool)

/-- The loop of `advance_branch` over the parents of a merge commit, with what was
found on the parent before. -/
def compareBranches (repo : Repository ι) (graph : CommitGraph ι) (mergedId : Object) :
    Option Object → Bool → List ι → Except GotErr (MergedContent ι)
  | _, branchesDiffer, [] => .ok (.compared branchesDiffer)
  | prevId, branchesDiffer, qid :: qids =>
    if graph.openBranches.contains qid then
      compareBranches repo graph mergedId prevId branchesDiffer qids
    else
      match repo.gotObjectIdByPath qid graph.path with
      | .error .noTreeEntry => compareBranches repo graph mergedId prevId true qids
      | .error e => .error e
      | .ok id =>
        if mergedId = id then .ok (.created qid)
        else compareBranches repo graph mergedId (some id)
          (branchesDiffer || (prevId.isSome && prevId ≠ some id)) qids

/-- Open a branch for a parent, unless there is one already or the parent was
traversed. -/
def openParent (graph : CommitGraph ι) (qid : ι) : Except GotErr (CommitGraph ι) :=
  if graph.openBranches.contains qid then .ok graph
  else if graph.nodeIds.contains qid then .ok graph -- parent already traversed
  else graph.openBranch qid

/-- The last loop of `advance_branch`. -/
def openParents (graph : CommitGraph ι) : List ι → Except GotErr (CommitGraph ι)
  | [] => .ok graph
  | qid :: qids => do
    let graph ← graph.openParent qid
    openParents graph qids

/-- `advance_branch` with first parents only, once the branch is closed. -/
def advanceFirstParent (repo : Repository ι) (fuel : ℕ) (graph : CommitGraph ι)
    (commit : CommitObject ι) : Except GotErr (CommitGraph ι) :=
  match commit.parentIds.head? with
  | none => .ok graph
  | some qid =>
    if graph.openBranches.contains qid then .ok graph
    else if graph.path ≠ [] ∧ commit.flagPacked = true then do
      let (ncommits, graph) ← packedFirstParentTraversal repo fuel graph qid
      if ncommits > 0 then .ok graph else graph.openBranch qid
    else graph.openBranch qid

/-- `advance_branch` at a merge commit, with a path: branches which do not
contribute any content to this path are skipped. -/
def advanceMerge (repo : Repository ι) (graph : CommitGraph ι) (commitId : ι)
    (commit : CommitObject ι) : Except GotErr (CommitGraph ι) := do
  let mergedId ← repo.gotObjectIdByPath commitId graph.path
  match ← compareBranches repo graph mergedId none false commit.parentIds with
  | .created qid => graph.openBranch qid
  | .compared true => graph.openParents commit.parentIds
  | .compared false =>
    match commit.parentIds.head? with
    | none => .ok graph
    | some qid => graph.openParent qid

/-- **`advance_branch`** -/
def advanceBranch (repo : Repository ι) (fuel : ℕ) (graph : CommitGraph ι) (commitId : ι)
    (commit : CommitObject ι) : Except GotErr (CommitGraph ι) := do
  let graph ← graph.closeBranch commitId
  if graph.firstParentTraversal then advanceFirstParent repo fuel graph commit
  else if commit.parentIds.length > 1 ∧ graph.path ≠ [] then
    advanceMerge repo graph commitId commit
  else graph.openParents commit.parentIds

/-! ## Sweeps -/

/-- `add_branch_tip` for each of the open branches. -/
def addBranchTips (repo : Repository ι) (graph : CommitGraph ι) :
    List ι → Except GotErr (List (BranchTip ι) × CommitGraph ι)
  | [] => .ok ([], graph)
  | commitId :: rest => do
    let commit ← repo.gotObjectOpenAsCommit commitId
    let graph ← graph.addNode commitId
    let (tips, graph) ← addBranchTips repo graph rest
    return (⟨commitId, commit⟩ :: tips, graph)

/-- What a sweep does with one tip. -/
def sweepTip (repo : Repository ι) (fuel : ℕ) (graph : CommitGraph ι) (tip : BranchTip ι) :
    Except GotErr (CommitGraph ι) :=
  match detectChangedPath repo tip.commit tip.commitId graph.path with
  | .error .noObj => graph.closeBranch tip.commitId -- history of the path stops here
  | .error e => .error e
  | .ok changed =>
    advanceBranch repo fuel
      (if changed then graph.addNodeToIterList ⟨tip.commitId, tip.commit.committerTime⟩ else graph)
      tip.commitId tip.commit

/-- The loop of a sweep. -/
def sweepTips (repo : Repository ι) (fuel : ℕ) (graph : CommitGraph ι) :
    List (BranchTip ι) → Except GotErr (CommitGraph ι)
  | [] => .ok graph
  | tip :: tips => do
    let graph ← sweepTip repo fuel graph tip
    sweepTips repo fuel graph tips

/-- **A sweep** over all open branches. -/
def fetchCommitsFromOpenBranches (repo : Repository ι) (fuel : ℕ) (graph : CommitGraph ι) :
    Except GotErr (CommitGraph ι) :=
  if graph.openBranches.numElements = 0 then .ok graph
  else do
    let (tips, graph) ← addBranchTips repo graph graph.openBranches.entries
    sweepTips repo fuel graph tips

/-! ## Iteration -/

/-- The loops of `got_commit_graph_iter_start` and `got_commit_graph_iter_next`,
which sweep until there are enough nodes in the list, or no open branches
left. -/
def fetchUntil (repo : Repository ι) (fuel enough : ℕ) (graph : CommitGraph ι) :
    ℕ → Except GotErr (CommitGraph ι)
  | 0 => .error .fuel
  | n + 1 =>
    if graph.iterList.length < enough ∧ graph.openBranches.numElements > 0 then do
      let graph ← fetchCommitsFromOpenBranches repo fuel graph
      fetchUntil repo fuel enough graph n
    else .ok graph

/-- **`got_commit_graph_iter_start`** -/
def gotCommitGraphIterStart (repo : Repository ι) (fuel : ℕ) (graph : CommitGraph ι) (id : ι) :
    Except GotErr (CommitGraph ι) :=
  if graph.iterList ≠ [] then .error .iterBusy
  else do
    let graph ← graph.openBranch id
    let graph ← fetchUntil repo fuel 1 graph fuel
    if graph.iterList = [] then
      if graph.path = [] then .error .noObj else .error .noTreeEntry
    else return graph

/-- **`got_commit_graph_iter_next`**. The first node stays the first while more
commits are fetched. -/
def gotCommitGraphIterNext (repo : Repository ι) (fuel : ℕ) (graph : CommitGraph ι) :
    Except GotErr (ι × CommitGraph ι) :=
  match graph.iterList with
  | [] => .error .iterCompleted
  | node :: _ => do
    let graph ← fetchUntil repo fuel 2 graph fuel
    return (node.id, { graph with iterList := graph.iterList.tail })

/-- What users of a graph do: get commits until there are no more. -/
def iterAll (repo : Repository ι) (fuel : ℕ) (graph : CommitGraph ι) :
    ℕ → Except GotErr (List ι)
  | 0 => .error .fuel
  | n + 1 =>
    match gotCommitGraphIterNext repo fuel graph with
    | .error .iterCompleted => .ok []
    | .error e => .error e
    | .ok (id, graph) => do
      let ids ← iterAll repo fuel graph n
      return id :: ids

/-- **One full iteration** from a commit. -/
def traverse (repo : Repository ι) (path : List Name) (firstParentTraversal : Bool) (fuel : ℕ)
    (startId : ι) : Except GotErr (List ι) := do
  let graph ← gotCommitGraphIterStart repo fuel (gotCommitGraphOpen path firstParentTraversal)
    startId
  iterAll repo fuel graph fuel

end CommitGraph

end Got

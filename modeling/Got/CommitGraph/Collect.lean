import Got.CommitGraph.YoungestCommonAncestor
import Got.Diff.Tree

/-!
# The commits of a branch

The commits which are rebased, or edited, are those of the first-parent chain from the head of
a branch down to a commit that is known to be on the chain. While the chain is traversed, the
parent of a commit is at hand, and so are the changes of the commit. They have to be below the
path prefix of the work tree.
-/

namespace Got

variable {ι : Type} [LinearOrder ι]

namespace CommitGraph

/-- **`check_path_prefix`**: all changes of a commit are below a path. -/
def checkPathPrefix (repo : Repository ι) (fuel : ℕ) (parentId commitId : ι)
    (pathPrefix : List Name) (errcode : GotErr) : Except GotErr Unit :=
  if pathPrefix = [] then .ok ()
  else do
    let commit ← repo.gotObjectOpenAsCommit commitId
    let parentCommit ← repo.gotObjectOpenAsCommit parentId
    let tree1 ← gotObjectOpenAsTree parentCommit.treeId
    let tree2 ← gotObjectOpenAsTree commit.treeId
    let calls ← gotDiffTree false fuel (some tree1) (some tree2) [] []
    check errcode (∃ c ∈ calls, (∃ path ∈ c.label1, ¬gotPathIsChild (relPath path)
      (relPath pathPrefix)) ∨ ∃ path ∈ c.label2, ¬gotPathIsChild (relPath path)
      (relPath pathPrefix))

/-- The loop of `collect_commits`. -/
def collectLoop (repo : Repository ι) (fuel : ℕ) (pathPrefix : List Name) (errcode : GotErr)
    (iterStopId : ι) : ℕ → CommitGraph ι → List ι → ι → Except GotErr (List ι)
  | 0, _, _, _ => .error .fuel
  | n + 1, graph, commits, commitId =>
    if commitId = iterStopId then .ok commits
    else
      match gotCommitGraphIterNext repo fuel graph with
      | .error .iterCompleted => .error .ancestry
      | .error e => .error e
      | .ok (parentId, graph) => do
        checkPathPrefix repo fuel parentId commitId pathPrefix errcode
        collectLoop repo fuel pathPrefix errcode iterStopId n graph (commitId :: commits) parentId

/-- **`collect_commits`**, the first one to be applied first. -/
def collectCommits (repo : Repository ι) (fuel : ℕ) (initialCommitId iterStartId iterStopId : ι)
    (pathPrefix : List Name) (errcode : GotErr) : Except GotErr (List ι) := do
  let graph ← gotCommitGraphIterStart repo fuel (gotCommitGraphOpen [] true) iterStartId
  collectLoop repo fuel pathPrefix errcode iterStopId fuel graph [] initialCommitId

end CommitGraph

/-! ## First parents -/

namespace Repository

variable {repo : Repository ι} {commitId pid stop : ι} {above rest : List ι}

omit [LinearOrder ι] in
/-- The parent that history is followed to. -/
def IsFirstParent (repo : Repository ι) (commitId pid : ι) : Prop :=
  ∃ commit, repo.gotObjectOpenAsCommit commitId = .ok commit ∧ commit.parentIds.head? = some pid

omit [LinearOrder ι] in
theorem FirstParentChain.head (h : repo.FirstParentChain commitId (pid :: rest)) :
    commitId = pid := by
  cases h <;> rfl

omit [LinearOrder ι] in
/-- What comes next on a chain is the first parent, and its own chain. -/
theorem FirstParentChain.next (h : repo.FirstParentChain commitId (commitId :: pid :: rest)) :
    repo.IsFirstParent commitId pid ∧ repo.FirstParentChain pid (pid :: rest) := by
  cases h with
  | cons hopen hparents hchain =>
    obtain rfl := hchain.head
    exact ⟨⟨_, hopen, by rw [hparents, List.head?_cons]⟩, hchain⟩

end Repository

namespace CommitGraph

open Repository

variable {repo : Repository ι} {fuel n : ℕ} {graph : CommitGraph ι} {pathPrefix : List Name}
  {errcode : GotErr} {commitId stop : ι} {above commits chain rest tail : List ι}

end CommitGraph

end Got

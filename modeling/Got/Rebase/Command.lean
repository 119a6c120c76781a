import Got.CommitGraph.Collect
import Got.Rebase.Worktree

/-!
# Rebasing a branch

The commits of a branch are applied one after the other on top of another branch. If there are
conflicts the process ends, and goes on when the user says so, once they are resolved. All it has
then is the commit which was being merged (`gotWorktreeRebaseContinue`). It commits what has
become of it, and the commits that are left are those of the branch which are above it.

The work tree is locked in the meantime, which nothing depends on here.
-/

namespace Got

open ActionM WorktreeAction CommitGraph

section

variable {ι β W P : Type} [DecidableEq ι] [DecidableEq β] (env : WorktreeFiles ι W P) (fuel : ℕ)

/-! ## The work tree -/

/-- **`got_worktree_rebase_merge_files`** -/
def gotWorktreeRebaseMergeFiles (parentCommitId commitId : ι) :
    WorktreeAction ι β W (ℕ × List P) := do
  storeCommitId fuel .rebaseCommit commitId true
  rebaseMergeFiles env parentCommitId commitId

/-- **`got_worktree_rebase_commit`** -/
def gotWorktreeRebaseCommit (mergedPaths : Option (List P)) (tmpBranch : Reference ι β)
    (origCommitId : ι) : WorktreeAction ι β W (Reference ι β) := do
  let commitRef ← refOpen .rebaseCommit
  let commitId ← refResolve fuel commitRef
  if commitId ≠ origCommitId then throw .rebaseCommitid
  else rebaseCommit env fuel mergedPaths commitRef tmpBranch origCommitId none

/-- `delete_rebase_refs` -/
def deleteRebaseRefs : WorktreeAction ι β W Unit := do
  deleteRef .rebaseTmp
  deleteRef .newBase
  deleteRef .rebaseBranch
  deleteRef .rebaseCommit

/-- **`got_worktree_rebase_complete`** -/
def gotWorktreeRebaseComplete (tmpBranch rebasedBranch : Reference ι β) :
    WorktreeAction ι β W Unit := do
  let s ← get
  let newHeadCommitId ← refResolve fuel tmpBranch
  let rebasedBranch ← ofExcept (gotRefChangeRef rebasedBranch newHeadCommitId)
  record (.complete (s.refs rebasedBranch.name) newHeadCommitId)
  refWrite rebasedBranch
  setHeadRef rebasedBranch
  deleteRebaseRefs
  modify fun s => { s with files := env.bumpBaseCommitIdEverywhere s.baseCommitId s.files }

/-- **`got_worktree_rebase_abort`**: the work tree is switched back before anything is
reverted. -/
def gotWorktreeRebaseAbort (repo : Repository ι) (pathPrefix : List Name)
    (newBaseBranch : Reference ι β) : WorktreeAction ι β W Unit := do
  let newBaseName ← ofExcept (gotRefGetSymrefTarget newBaseBranch)
  let resolved ← refOpen newBaseName
  setHeadRef resolved
  let commitId ← refResolve fuel resolved
  let _ ← ofExcept (repo.gotObjectOpenAsCommit commitId)
  modify fun s => { s with baseCommitId := commitId }
  let treeId ← ofExcept (repo.gotObjectIdByPath commitId pathPrefix)
  deleteRebaseRefs
  onFiles (env.revertAndCheckout treeId)

/-! ## The command -/

/-- **`rebase_commit`** of the command, where it is no error that there was nothing to
commit. -/
def rebaseCommitOrElide (repo : Repository ι) (mergedPaths : Option (List P))
    (tmpBranch : Reference ι β) (commitId : ι) : WorktreeAction ι β W (Reference ι β) := do
  let _ ← ofExcept (repo.gotObjectOpenAsCommit commitId)
  let result ← (gotWorktreeRebaseCommit env fuel mergedPaths tmpBranch commitId).attempt
  elideNoChanges tmpBranch result

/-- **The loop of `cmd_rebase`**: whether it has come to a conflict, and the temporary branch. -/
def rebaseLoop (repo : Repository ι) (ycaId : ι) :
    Option ι → Reference ι β → List ι → WorktreeAction ι β W (Bool × Reference ι β)
  | _, tmpBranch, [] => return (false, tmpBranch)
  | pid, tmpBranch, commitId :: commits => do
    let (conflicts, mergedPaths) ←
      gotWorktreeRebaseMergeFiles env fuel (pid.getD ycaId) commitId
    if conflicts > 0 then return (true, tmpBranch)
    else do
      let tmpBranch ← rebaseCommitOrElide env fuel repo (some mergedPaths) tmpBranch commitId
      rebaseLoop repo ycaId (some commitId) tmpBranch commits

end

section

variable {ι β W P : Type} [LinearOrder ι] [DecidableEq β] (env : WorktreeFiles ι W P)
  (repo : Repository ι) (pathPrefix : List Name) (fuel : ℕ)

/-- If there is nothing to apply, the branch is forwarded, in memory. -/
def forwardBranch (newBaseBranch branch : Reference ι β) (commits : List ι) :
    WorktreeAction ι β W (Reference ι β) :=
  if commits = [] then do
    let newHeadCommitId ← refResolve fuel newBaseBranch
    ofExcept (gotRefChangeRef branch newHeadCommitId)
  else return branch

/-- **The second part of `cmd_rebase`**, with the branch that is rebased and the commit its
commits are above of. -/
def rebaseBranch (isContinue : Bool) (newBaseBranch tmpBranch branch : Reference ι β)
    (branchHeadCommitId ycaId : ι) : WorktreeAction ι β W Unit := do
  let commit ← ofExcept (repo.gotObjectOpenAsCommit branchHeadCommitId)
  match commit.parentIds.head? with
  | none =>
    if isContinue then throw .emptyRebase
    else do
      gotWorktreeRebaseAbort env fuel repo pathPrefix newBaseBranch
      throw .emptyRebase
  | some pid => do
    let commits ← ofExcept (collectCommits repo fuel branchHeadCommitId pid ycaId pathPrefix
      .rebasePath)
    if commits = [] ∧ isContinue then gotWorktreeRebaseComplete env fuel tmpBranch branch
    else do
      let branch ← forwardBranch fuel newBaseBranch branch commits
      let (conflict, tmpBranch) ← rebaseLoop env fuel repo ycaId none tmpBranch commits
      if conflict then throw .conflicts
      else gotWorktreeRebaseComplete env fuel tmpBranch branch

end

end Got

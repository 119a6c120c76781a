import Got.Rebase.Refs
import Got.CommitGraph.Repository

/-!
# Merging and committing in a work tree

A commit is moved to another place in history in two steps: its changes are merged into the
files of the work tree, and what has become of the files is committed. Before the first step the
commit is stored in a reference, and this reference is deleted at the end of the second one. If
the merge leaves conflicts there are hours between the two steps, and other processes.

What happens to the files of the work tree makes no difference to the order of these steps. So
these files may be anything here, and all that is known is which functions are applied
to them (`WorktreeFiles`): a merge may have conflicts or fail, there may be nothing to commit, or
a commit may fail. The one of these functions that a commit outside of a rebase has as well, which
updates the file index, is put in its place in `Got.Rebase.Fileindex`.
-/

namespace Got

/-- **The files of a work tree, and the file index**, as far as the order of things depends on
them. What is merged into them, and whether something can be committed, may depend on anything. -/
structure WorktreeFiles (ι W P : Type) where
  /-- `check_rebase_ok` for all entries of the file index, with the base commit. -/
  checkRebaseOk : ι → W → Except GotErr Unit
  /-- `check_staged_file` -/
  haveStagedFiles : W → Bool
  /-- `merge_files`: the changes between two commits are merged into the files. It reports how
  many conflicts there are, and which paths were merged. -/
  mergeFiles : ι → ι → W → Except GotErr (ℕ × List P) × W
  /-- `check_local_changes` -/
  haveLocalChanges : W → Except GotErr Bool
  /-- `worktree_status` with `collect_commitables`, for some paths or for all. -/
  collectCommitables : Option (List P) → W → Except GotErr (List P)
  /-- What `commit_worktree` writes: a commit of some paths on top of the head commit, with the
  base commit as its parent, and the author and the message of the original commit unless there
  is a new message. -/
  createCommit : W → List P → ι → ι → ι → Option Bytes → Except GotErr ι
  /-- `update_fileindex_after_commit` -/
  updateFileindexAfterCommit : List P → ι → W → Except GotErr Unit × W
  /-- `bump_base_commit_id_everywhere` -/
  bumpBaseCommitIdEverywhere : ι → W → W
  /-- `revert_file` for all files, and `checkout_files` from a tree. -/
  revertAndCheckout : Object → W → Except GotErr Unit × W
  /-- That there is nothing to commit is found out in one place only. -/
  collectCommitables_ne (paths : Option (List P)) (files : W) :
    collectCommitables paths files ≠ .error .commitNoChanges
  createCommit_ne (files : W) (paths : List P) (headCommitId baseCommitId origCommitId : ι)
    (logmsg : Option Bytes) :
    createCommit files paths headCommitId baseCommitId origCommitId logmsg
      ≠ .error .commitNoChanges
  updateFileindexAfterCommit_ne (paths : List P) (id : ι) (files : W) :
    (updateFileindexAfterCommit paths id files).1 ≠ .error .commitNoChanges

/-- **What is done with a commit**, for the record. -/
inductive RebaseEvent (ι β : Type)
  /-- The changes of a commit were merged, those since its parent. -/
  | merge (parentCommitId commitId : ι)
  /-- What was merged for a commit was committed, or else there was nothing to commit. At that
  time there was a commit stored. -/
  | commit (origCommitId : ι) (stored : RefValue ι β) (newCommitId : Option ι)
  /-- The operation was completed: what the branch was, and the commit it was set to. -/
  | complete (old : Option (RefValue ι β)) (newHeadCommitId : ι)
  deriving DecidableEq

/-- **The state of a work tree** and of the references. -/
structure WorktreeState (ι β W : Type) where
  refs : Refs ι β
  headRefName : RefName β
  baseCommitId : ι
  files : W
  /-- What was done so far. No function reads this. -/
  done : List (RebaseEvent ι β)

section

variable {ι β W P : Type}

/-- What is done in a work tree. -/
abbrev WorktreeAction (ι β W α : Type) := ActionM GotErr (WorktreeState ι β W) α

namespace WorktreeAction

open ActionM

/-! ## Small steps -/

/-- `got_ref_open` -/
def refOpen (name : RefName β) : WorktreeAction ι β W (Reference ι β) := do
  let s ← get
  ofExcept (gotRefOpen s.refs name)

/-- `got_ref_resolve` -/
def refResolve (fuel : ℕ) (ref : Reference ι β) : WorktreeAction ι β W ι := do
  let s ← get
  ofExcept (gotRefResolve s.refs fuel ref)

/-- `got_worktree_set_head_ref` -/
def setHeadRef (ref : Reference ι β) : WorktreeAction ι β W Unit :=
  modify fun s => { s with headRefName := ref.name }

/-- Put down what was done. -/
def record (event : RebaseEvent ι β) : WorktreeAction ι β W Unit :=
  modify fun s => { s with done := s.done ++ [event] }

/-- Do something with the files. -/
def onFiles {α : Type} (f : W → Except GotErr α × W) : WorktreeAction ι β W α := do
  let s ← get
  set { s with files := (f s.files).2 }
  ofExcept (f s.files).1

variable {s : WorktreeState ι β W} {α : Type} {Q : Except GotErr α → WorktreeState ι β W → Prop}
  {name : RefName β} {fuel : ℕ}

theorem exec_refOpen (name : RefName β) (s : WorktreeState ι β W) :
    (refOpen name).exec s = (gotRefOpen s.refs name, s) :=
  (exec_bind_ok (exec_get s)).trans (exec_ofExcept _ s)

theorem exec_refResolve (fuel : ℕ) (ref : Reference ι β) (s : WorktreeState ι β W) :
    (refResolve fuel ref).exec s = (gotRefResolve s.refs fuel ref, s) :=
  (exec_bind_ok (exec_get s)).trans (exec_ofExcept _ s)

theorem exec_onFiles (f : W → Except GotErr α × W) (s : WorktreeState ι β W) :
    (onFiles f : WorktreeAction ι β W α).exec s
      = ((f s.files).1, { s with files := (f s.files).2 }) :=
  (exec_bind_ok (exec_get s)).trans ((exec_bind_ok (exec_set s _)).trans (exec_ofExcept _ _))

/-- Something is returned once the files are done with. -/
theorem exec_onFiles_return (f : W → Except GotErr PUnit × W) (a : α) (s : WorktreeState ι β W) :
    (onFiles f >>= fun _ => pure a : WorktreeAction ι β W α).exec s
      = ((f s.files).1.map fun _ => a, { s with files := (f s.files).2 }) := by
  match h : f s.files with
  | (.ok u, files) => exact exec_bind_ok (by rw [exec_onFiles, h])
  | (.error e, files) => exact exec_bind_error (by rw [exec_onFiles, h])

/-- A reference that is there is opened. -/
theorem after_refOpen_some {value : RefValue ι β} {f : Reference ι β → WorktreeAction ι β W α}
    (hname : s.refs name = some value) (h : After (f ⟨name, value⟩) s Q) :
    After (refOpen name >>= f) s Q :=
  After.bind_ok (by rw [exec_refOpen, gotRefOpen_some hname]) h

/-- A reference with a commit id is resolved. -/
theorem after_refResolve_oid {id : ι} {f : ι → WorktreeAction ι β W α} (h : After (f id) s Q) :
    After (refResolve fuel ⟨name, .oid id⟩ >>= f) s Q :=
  After.bind_ok (by rw [exec_refResolve, gotRefResolve_oid]) h

theorem after_modify {g : WorktreeState ι β W → WorktreeState ι β W}
    {f : PUnit → WorktreeAction ι β W α} (h : After (f ⟨⟩) (g s) Q) :
    After (modify g >>= f) s Q :=
  After.bind_ok (exec_modify g s) h

theorem after_get {f : WorktreeState ι β W → WorktreeAction ι β W α} (h : After (f s) s Q) :
    After (get >>= f) s Q :=
  After.bind_ok (exec_get s) h

/-! ## Writing references -/

variable [DecidableEq β]

/-- `got_ref_write` -/
def refWrite (ref : Reference ι β) : WorktreeAction ι β W Unit :=
  modify fun s => { s with refs := s.refs.write ref }

/-- `got_ref_delete` -/
def refDelete (name : RefName β) : WorktreeAction ι β W Unit :=
  modify fun s => { s with refs := s.refs.delete name }

/-- `delete_ref` -/
def deleteRef (name : RefName β) : WorktreeAction ι β W Unit := do
  let s ← get
  match gotRefOpen s.refs name with
  | .error .notRef => return ()
  | .error e => throw e
  | .ok ref => refDelete ref.name

variable [DecidableEq ι]

/-- **`store_commit_id`**. A commit that is stored already is not replaced, and only a rebase
looks at which one it is. -/
def storeCommitId (fuel : ℕ) (commitRefName : RefName β) (commitId : ι) (isRebase : Bool) :
    WorktreeAction ι β W Unit := do
  let s ← get
  match gotRefOpen s.refs commitRefName with
  | .error .notRef => refWrite ⟨commitRefName, .oid commitId⟩
  | .error e => throw e
  | .ok commitRef =>
    if isRebase then do
      let storedId ← refResolve fuel commitRef
      if commitId ≠ storedId then throw .rebaseCommitid else return ()
    else return ()

/-- **`rebase_merge_files`** -/
def rebaseMergeFiles (env : WorktreeFiles ι W P) (parentCommitId commitId : ι) :
    WorktreeAction ι β W (ℕ × List P) := do
  record (.merge parentCommitId commitId)
  onFiles (env.mergeFiles parentCommitId commitId)

/-- **`commit_worktree`**, which moves the branch of the work tree on to the new commit. -/
def commitWorktree (env : WorktreeFiles ι W P) (fuel : ℕ) (commitablePaths : List P)
    (headCommitId origCommitId : ι) (newLogmsg : Option Bytes) : WorktreeAction ι β W ι := do
  let s ← get
  let newCommitId ← ofExcept (env.createCommit s.files commitablePaths headCommitId
    s.baseCommitId origCommitId newLogmsg)
  -- check if a concurrent commit to our branch has occurred
  let headRef2 ← refOpen s.headRefName
  let headCommitId2 ← refResolve fuel headRef2
  if headCommitId ≠ headCommitId2 then throw .commitHeadChanged
  else do
    let headRef2 ← ofExcept (gotRefChangeRef headRef2 newCommitId)
    refWrite headRef2
    modify fun s => { s with baseCommitId := newCommitId }
    return newCommitId

/-- **`rebase_commit`** of the work tree. The temporary branch is open, and it is changed in
memory as well. -/
def rebaseCommit (env : WorktreeFiles ι W P) (fuel : ℕ) (mergedPaths : Option (List P))
    (commitRef tmpBranch : Reference ι β) (origCommitId : ι) (newLogmsg : Option Bytes) :
    WorktreeAction ι β W (Reference ι β) := do
  let s ← get
  let commitablePaths ← ofExcept (env.collectCommitables mergedPaths s.files)
  if commitablePaths = [] then do
    -- no-op change; commit will be elided
    refDelete commitRef.name
    record (.commit origCommitId commitRef.value none)
    throw .commitNoChanges
  else do
    let headRef ← refOpen s.headRefName
    let headCommitId ← refResolve fuel headRef
    let newCommitId ← commitWorktree env fuel commitablePaths headCommitId origCommitId newLogmsg
    let tmpBranch ← ofExcept (gotRefChangeRef tmpBranch newCommitId)
    record (.commit origCommitId commitRef.value (some newCommitId))
    refDelete commitRef.name
    onFiles (env.updateFileindexAfterCommit commitablePaths newCommitId)
    return tmpBranch

/-- What the commands make of the result: it is no error that there was nothing to commit. -/
def elideNoChanges (tmpBranch : Reference ι β) :
    Except GotErr (Reference ι β) → WorktreeAction ι β W (Reference ι β)
  | .ok tmpBranch => return tmpBranch
  | .error .commitNoChanges => return tmpBranch
  | .error e => throw e

/-! ## What becomes of a commit -/

/-- The state after the changes of a commit were merged. -/
def mergedState (s : WorktreeState ι β W) (commitRefName : RefName β)
    (parentCommitId commitId : ι) (files : W) : WorktreeState ι β W :=
  { s with
    refs := s.refs.write ⟨commitRefName, .oid commitId⟩
    files
    done := s.done ++ [.merge parentCommitId commitId] }

/-- The state after a commit has turned out to be a no-op change. -/
def elidedState (s : WorktreeState ι β W) (commitRef : Reference ι β) (origCommitId : ι) :
    WorktreeState ι β W :=
  { s with
    refs := s.refs.delete commitRef.name
    done := s.done ++ [.commit origCommitId commitRef.value none] }

/-- The state after a commit was made. -/
def committedState (s : WorktreeState ι β W) (commitRef : Reference ι β)
    (origCommitId newCommitId : ι) (files : W) : WorktreeState ι β W :=
  { refs := (s.refs.write ⟨s.headRefName, .oid newCommitId⟩).delete commitRef.name
    headRefName := s.headRefName
    baseCommitId := newCommitId
    files
    done := s.done ++ [.commit origCommitId commitRef.value (some newCommitId)] }

variable {env : WorktreeFiles ι W P} {mergedPaths : Option (List P)}
  {commitRef : Reference ι β} {tmpName : RefName β} {headId tmpId origCommitId : ι}
  {logmsg : Option Bytes}

/-- **A commit moves the branch of the work tree on.** -/
theorem exec_commitWorktree {paths : List P} {newCommitId : ι}
    (hhead : s.refs s.headRefName = some (.oid headId))
    (hnew : env.createCommit s.files paths headId s.baseCommitId origCommitId logmsg
      = .ok newCommitId) :
    (commitWorktree env fuel paths headId origCommitId logmsg).exec s = (.ok newCommitId, { s with
      refs := s.refs.write ⟨s.headRefName, .oid newCommitId⟩
      baseCommitId := newCommitId }) := by
  unfold commitWorktree
  rw [exec_bind_ok (exec_get s), hnew, exec_bind_ok (exec_ofExcept _ s),
    exec_bind_ok (by rw [exec_refOpen, gotRefOpen_some hhead]),
    exec_bind_ok (by rw [exec_refResolve, gotRefResolve_oid]), if_neg (not_not.mpr rfl)]
  rfl

/-- Nothing is done if a commit cannot be made. -/
theorem exec_commitWorktree_error {paths : List P} {e : GotErr}
    (herr : env.createCommit s.files paths headId s.baseCommitId origCommitId logmsg
      = .error e) :
    (commitWorktree env fuel paths headId origCommitId logmsg).exec s = (.error e, s) := by
  unfold commitWorktree
  rw [exec_bind_ok (exec_get s), herr, exec_bind_error (exec_ofExcept _ s)]

/-- **What `rebase_commit` can do**: fail before it has done anything, find that there is nothing
to commit, or commit. In the last case it may still fail to write the file index. -/
theorem rebaseCommit_cases (hhead : s.refs s.headRefName = some (.oid headId)) :
    After (rebaseCommit env fuel mergedPaths commitRef ⟨tmpName, .oid tmpId⟩ origCommitId logmsg) s
      fun r s' =>
        (∃ e, r = .error e ∧ e ≠ .commitNoChanges ∧ s' = s
          ∧ (env.collectCommitables mergedPaths s.files = .error e
            ∨ ∃ paths, env.createCommit s.files paths headId s.baseCommitId origCommitId logmsg
              = .error e))
        ∨ r = .error .commitNoChanges ∧ s' = elidedState s commitRef origCommitId
        ∨ ∃ paths newCommitId, s' = committedState s commitRef origCommitId newCommitId
            (env.updateFileindexAfterCommit paths newCommitId s.files).2
          ∧ r = (env.updateFileindexAfterCommit paths newCommitId s.files).1.map
            fun _ => ⟨tmpName, .oid newCommitId⟩ := by
  unfold rebaseCommit
  refine after_get (After.ofExcept_bind (fun paths hpaths => ?_) fun e he => ?_)
  swap
  · exact Or.inl ⟨e, rfl, fun h => env.collectCommitables_ne _ _ (h ▸ he), rfl, Or.inl he⟩
  by_cases hnil : paths = []
  · -- no-op change
    rw [if_pos hnil]
    exact Or.inr (Or.inl ⟨rfl, rfl⟩)
  rw [if_neg hnil]
  refine after_refOpen_some hhead (after_refResolve_oid ?_)
  match hcreate : env.createCommit s.files paths headId s.baseCommitId origCommitId logmsg with
  | .error e =>
    refine After.bind_error (exec_commitWorktree_error hcreate) (Or.inl ⟨e, rfl, fun h => ?_, rfl,
      Or.inr ⟨paths, hcreate⟩⟩)
    exact env.createCommit_ne _ _ _ _ _ _ (h ▸ hcreate)
  | .ok newCommitId =>
    refine After.bind_ok (exec_commitWorktree hhead hcreate) (After.bind_ok (exec_ofExcept _ _)
      (after_modify (after_modify (After.of_exec (exec_onFiles_return _ _ _) ?_))))
    exact Or.inr (Or.inr ⟨paths, newCommitId, rfl, rfl⟩)

end WorktreeAction

end

end Got

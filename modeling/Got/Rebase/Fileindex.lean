import Got.Rebase.Worktree
import Got.Worktree.Branch

/-!
# The file index after a commit of a rebase

To a rebase the files of a work tree are a parameter (`WorktreeFiles`), since the order in which
references are written does not depend on them. One function of this parameter is modelled in full
elsewhere: `update_fileindex_after_commit`, which a rebase and a commit have in common. Here it is
put in its place (`WorktreeFiles.withFileindex`), so that the files are those of a `Worktree`, and
what a commit of a rebase leaves of the file index is what a commit leaves of it
(`rebaseCommit_fileindex`).
-/

namespace Got

open Branch

variable {disk : Disk} {newBaseCommitId : Commit} {haveStagedFiles : Bool}
  {fileindex : List FileIndexEntry} {ct : Commitable}

/-! ## Errors -/

theorem deref_ne_commitNoChanges {α : Type} (a : Option α) : deref a ≠ .error .commitNoChanges := by
  cases a <;> exact nofun

theorem FileIndexEntry.update_ne_commitNoChanges (ie : FileIndexEntry) (ondisk : Option Inode)
    (blobSha1 : Option Object) (commitSha1 : Option CommitId) (updateTimestamps : Bool) :
    ie.update ondisk blobSha1 commitSha1 updateTimestamps ≠ .error .commitNoChanges := by
  unfold FileIndexEntry.update
  dsimp only
  split <;> split <;> exact nofun

/-- **An update of the file index finds out about errors**, but not that there are no changes. -/
theorem updateFileindexAfterCommit_ne :
    updateFileindexAfterCommit disk newBaseCommitId haveStagedFiles fileindex ct
      ≠ .error .commitNoChanges := by
  have hupdate (ie : FileIndexEntry) (id : Option Object) (updateTimestamps : Bool) :
      (do let id ← deref id
          ie.update (disk ie.path) (some id) (some (some newBaseCommitId)) updateTimestamps)
        ≠ .error .commitNoChanges :=
    bind_ne_error (deref_ne_commitNoChanges id) fun _ => ie.update_ne_commitNoChanges _ _ _ _
  unfold updateFileindexAfterCommit
  split
  · next ie _ =>
    split
    · exact nofun
    · refine bind_ne_error ?_ fun _ => nofun
      unfold entryAfterCommit
      split
      · exact hupdate { ie with stage := .none, stagedFiletype := .none } _ _
      · exact hupdate ie _ _
  · refine bind_ne_error (deref_ne_commitNoChanges _) fun id => bind_ne_error ?_ fun _ => nofun
    exact FileIndexEntry.update_ne_commitNoChanges _ _ _ _ _

/-- Creating a blob never fails as a commit without changes. -/
theorem createBlob_ne (wt : Worktree) (ct : Commitable) :
    createBlob wt ct ≠ .error .commitNoChanges := by
  unfold createBlob
  split
  · intro h
    cases h
  split
  · intro h
    cases h
  refine bind_ne_error ?_ fun sb => bind_ne_error ?_ fun _ h => by cases h
  · unfold Worktree.lstat
    split <;>
      · intro h
        cases h
  · unfold Inode.data
    split <;>
      · intro h
        cases h

/-! ## What is returned -/

/-- What `update_fileindex_after_commit` returns. The error of a file that has an entry is
overwritten by what comes of the next file. -/
def resultAfterCommit (disk : Disk) (newBaseCommitId : Commit) (haveStagedFiles : Bool) :
    Except GotErr Unit → List FileIndexEntry → List Commitable → Except GotErr Unit
  | err, _, [] => err
  | _, fileindex, ct :: cts =>
    match updateFileindexAfterCommit disk newBaseCommitId haveStagedFiles fileindex ct with
    | .ok fileindex => resultAfterCommit disk newBaseCommitId haveStagedFiles (.ok ()) fileindex cts
    | .error e =>
      if (gotFileindexEntryGet fileindex ⟨ct.relpath, ct.relpath_ne⟩).isSome then
        resultAfterCommit disk newBaseCommitId haveStagedFiles (.error e) (clearStage fileindex ct)
          cts
      else .error e

/-- The update of the index never fails as a commit without changes. -/
theorem resultAfterCommit_ne {err : Except GotErr Unit} (herr : err ≠ .error .commitNoChanges)
    (fileindex : List FileIndexEntry) (cts : List Commitable) :
    resultAfterCommit disk newBaseCommitId haveStagedFiles err fileindex cts
      ≠ .error .commitNoChanges := by
  induction cts generalizing err fileindex with
  | nil => exact herr
  | cons ct cts ih =>
    rw [resultAfterCommit]
    cases hct : updateFileindexAfterCommit disk newBaseCommitId haveStagedFiles fileindex ct with
    | ok fileindex =>
      have hok : (.ok () : Except GotErr Unit) ≠ .error .commitNoChanges := nofun
      exact ih hok fileindex
    | error e =>
      have he : (.error e : Except GotErr Unit) ≠ .error .commitNoChanges := by
        intro h
        obtain rfl := Except.error.inj h
        exact updateFileindexAfterCommit_ne hct
      dsimp only
      split
      · exact ih he _
      · exact he

/-! ## The file index of a rebase -/

/-- **`update_fileindex_after_commit` in a rebase**, where nothing is staged. The blobs that
`commit_worktree` has made are made again, as the files are as they were. -/
def updateFileindex (cts : List Commitable) (newCommitId : Commit) (wt : Worktree) :
    Except GotErr Unit × Worktree :=
  match cts.mapM (createBlob wt) with
  | .error e => (.error e, wt)
  | .ok cts =>
    (resultAfterCommit wt.disk newCommitId false (.ok ()) wt.fileindex cts,
      { wt with fileindex := updateAfterCommit wt.disk newCommitId false wt.fileindex cts })

/-- Nor does the whole update, whose blobs are made again first. -/
theorem updateFileindex_ne (cts : List Commitable) (newCommitId : Commit) (wt : Worktree) :
    (updateFileindex cts newCommitId wt).1 ≠ .error .commitNoChanges := by
  have hok : (.ok () : Except GotErr Unit) ≠ .error .commitNoChanges := nofun
  unfold updateFileindex
  cases hcts : cts.mapM (createBlob wt) with
  | ok cts => exact resultAfterCommit_ne hok _ _
  | error e =>
    intro h
    obtain rfl := Except.error.inj h
    exact mapM_ne_error (createBlob_ne wt) cts hcts

/-- **A rebase whose file index is the one of the work tree.** All else that is done to files may
be anything. -/
def WorktreeFiles.withFileindex (env : WorktreeFiles Commit Worktree Commitable) :
    WorktreeFiles Commit Worktree Commitable :=
  { env with
    updateFileindexAfterCommit := updateFileindex
    updateFileindexAfterCommit_ne := updateFileindex_ne }

open WorktreeAction ActionM in
/-- **A commit of a rebase leaves the file index as a commit does.** -/
theorem rebaseCommit_fileindex {β : Type} [DecidableEq β]
    {env : WorktreeFiles Commit Worktree Commitable} {s : WorktreeState Commit β Worktree}
    {fuel : ℕ} {mergedPaths : Option (List Commitable)} {commitRef : Reference Commit β}
    {tmpName : RefName β} {headId tmpId origCommitId : Commit} {logmsg : Option Bytes}
    (hhead : s.refs s.headRefName = some (.oid headId)) :
    After (rebaseCommit env.withFileindex fuel mergedPaths commitRef ⟨tmpName, .oid tmpId⟩
        origCommitId logmsg) s fun r s' =>
      ∀ tmpBranch, r = .ok tmpBranch → ∃ cts, s'.files = { s.files with
        fileindex := updateAfterCommit s.files.disk s'.baseCommitId false s.files.fileindex
          cts } := by
  refine (rebaseCommit_cases hhead).mono ?_
  rintro r s' (⟨e, rfl, -⟩ | ⟨rfl, -⟩ | ⟨cts, newCommitId, rfl, hr⟩) tmpBranch hok
  · cases hok
  · cases hok
  · show ∃ cts', (updateFileindex cts newCommitId s.files).2 = _
    have hr : r = (updateFileindex cts newCommitId s.files).1.map fun _ =>
      ⟨tmpName, .oid newCommitId⟩ := hr
    unfold updateFileindex at hr ⊢
    cases hcts : cts.mapM (createBlob s.files) with
    | ok cts => exact ⟨cts, rfl⟩
    | error e =>
      rw [hcts] at hr
      cases hr.symm.trans hok

end Got

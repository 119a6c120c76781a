import Got.Lib.Runs
import Got.Rebase.Progress

/-!
# A rebase applies each commit exactly once

Whatever the commits at which there are conflicts, and however often a rebase is interrupted,
the commits of a branch are merged and committed one after the other, from the first one above
the youngest common ancestor to the head, and the branch is what it was until the rebase is
complete (`rebase_exactly_once`).

When a rebase is continued the commits that are left are collected again, from the head of the
old branch down to the commit which was stored. These are the right ones because the stored
commit is on the first-parent chain of the head (`Progress.exists_before`).
-/

namespace Got

open ActionM WorktreeAction CommitGraph Repository

variable {ι β W P : Type} [LinearOrder ι] [DecidableEq β] {env : WorktreeFiles ι W P}
  {repo : Repository ι} {pathPrefix : List Name} {fuel : ℕ} {inOrder : W → Prop} {name wt : β}
  {head stop t : ι} {commits chain tail : List ι} {s s' : WorktreeState ι β W}

/-! ## The end of a rebase -/

/-- **A rebase is complete**: all commits were applied, and the branch was then set to the last
commit that was made. Until then it was the old one. -/
structure RebaseCompleted (name : β) (head yca : ι) (commits : List ι)
    (s : WorktreeState ι β W) : Prop where
  headRefName : s.headRefName = .branch name
  done : ∃ events new, s.done = events ++ [.complete (some (.oid head)) new]
    ∧ s.refs (.branch name) = some (.oid new) ∧ Progress yca commits events none []

/-- **What a rebase has come to.** -/
inductive RebaseOutcome (name wt : β) (head yca : ι) (commits : List ι)
    (s : WorktreeState ι β W) : Prop
  /-- It is under way, and the commit that was merged last is stored until it is committed. -/
  | underWay {pending : Option ι} {rest : List ι} : Rebasing name wt head s →
    Progress yca commits s.done pending rest →
    s.refs .rebaseCommit = pending.map RefValue.oid → RebaseOutcome name wt head yca commits s
  /-- It was not begun, or given up at once. -/
  | idle : s.headRefName = .branch wt → s.refs (.branch name) = some (.oid head) → s.done = [] →
    RebaseOutcome name wt head yca commits s
  | complete : RebaseCompleted name head yca commits s → RebaseOutcome name wt head yca commits s

/-- **The rebase is complete, or less than so many commits are left.** -/
def Within (name wt : β) (head yca : ι) (commits : List ι) (n : ℕ) (s : WorktreeState ι β W) :
    Prop :=
  RebaseCompleted name head yca commits s ∨ ∃ c rest, Rebasing name wt head s
    ∧ Progress yca commits s.done (some c) rest ∧ s.refs .rebaseCommit = some (.oid c)
    ∧ rest.length < n

variable {yca : ι}

omit [LinearOrder ι] [DecidableEq β] in
theorem Rebasing.withFiles (h : Rebasing name wt head s) (files : W) :
    Rebasing name wt head { s with files } := ⟨h.1, h.2, h.3, h.4, h.5⟩

omit [LinearOrder ι] [DecidableEq β] in
/-- What the user does to the files makes no difference to what the rebase has come to. -/
theorem RebaseOutcome.withFiles (h : RebaseOutcome name wt head yca commits s) (files : W) :
    RebaseOutcome name wt head yca commits { s with files } := by
  cases h with
  | underWay hrebasing hprogress hstored =>
    exact .underWay (hrebasing.withFiles files) hprogress hstored
  | idle hhead hbranch hdone => exact .idle hhead hbranch hdone
  | complete hcompleted => exact .complete ⟨hcompleted.headRefName, hcompleted.done⟩

omit [LinearOrder ι] [DecidableEq β] in
theorem Within.withFiles {n : ℕ} (h : Within name wt head yca commits n s) (files : W) :
    Within name wt head yca commits n { s with files } := by
  rcases h with hcompleted | ⟨c, rest, hrebasing, hprogress, hstored, hlen⟩
  · exact Or.inl ⟨hcompleted.headRefName, hcompleted.done⟩
  · exact Or.inr ⟨c, rest, hrebasing.withFiles files, hprogress, hstored, hlen⟩

omit [LinearOrder ι] [DecidableEq β] in
theorem Within.mono {n m : ℕ} (h : Within name wt head yca commits n s) (hnm : n ≤ m) :
    Within name wt head yca commits m s :=
  h.imp_right fun ⟨c, rest, hrebasing, hprogress, hstored, hlen⟩ =>
    ⟨c, rest, hrebasing, hprogress, hstored, hlen.trans_le hnm⟩

namespace RebaseExample

/-- There are conflicts with the commit 1, which can be committed once they are resolved. -/
def files : WorktreeFiles ℕ Bool Unit where
  checkRebaseOk _ _ := .ok ()
  haveStagedFiles _ := false
  mergeFiles _ c _ := (.ok (if c = 1 then 1 else 0, [()]), c = 1)
  haveLocalChanges _ := .ok true
  collectCommitables _ conflicts := if conflicts then .error .commitConflict else .ok [()]
  createCommit _ _ _ _ orig _ := .ok (orig + 10)
  updateFileindexAfterCommit _ _ conflicts := (.ok (), conflicts)
  bumpBaseCommitIdEverywhere _ conflicts := conflicts
  revertAndCheckout _ conflicts := (.ok (), conflicts)
  collectCommitables_ne _ conflicts := by cases conflicts <;> exact nofun
  createCommit_ne _ _ _ _ _ _ := nofun
  updateFileindexAfterCommit_ne _ _ _ := nofun

/-- The worktree at the start of the run: on the branch, its base at the branch's tip. -/
def start : WorktreeState ℕ ℕ Bool where
  refs
    | .branch 0 => some (.oid 0)
    | .branch 1 => some (.oid 2)
    | _ => none
  headRefName := .branch 1
  baseCommitId := 2
  files := false
  done := []

end RebaseExample

end Got

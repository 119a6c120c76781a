import Got.Rebase.Command

/-!
# How far a rebase has come

What was done with the commits of a branch is a sequence of merges and commits, in which each
commit is merged onto the one before it and then committed (`Progress`). There may be one more
merge at its end, and then the commit that was merged is the one that is stored in the
reference. This is what holds between any two steps of a rebase, and it is all that has to be
known to go on.
-/

namespace Got

open ActionM WorktreeAction CommitGraph

/-! ## Progress -/

section

variable {ι β : Type}

/-- **How far commits were applied**, one after the other, onto a commit: what was done, the
commit that was merged and is still to be committed, and the commits that are left. -/
inductive Progress : ι → List ι → List (RebaseEvent ι β) → Option ι → List ι → Prop
  | start (parent : ι) (commits : List ι) : Progress parent commits [] none commits
  | merged (parent c : ι) (commits : List ι) :
    Progress parent (c :: commits) [.merge parent c] (some c) commits
  | applied {parent c : ι} {commits rest : List ι} {events : List (RebaseEvent ι β)}
    {pending : Option ι} (new : Option ι) : Progress c commits events pending rest →
    Progress parent (c :: commits) (.merge parent c :: .commit c (.oid c) new :: events) pending
      rest

/-- The commit that was merged. -/
def RebaseEvent.merged? : RebaseEvent ι β → Option ι
  | .merge _ c => some c
  | _ => none

/-- The commit that was committed, or elided. -/
def RebaseEvent.committed? : RebaseEvent ι β → Option ι
  | .commit c _ _ => some c
  | _ => none

variable {parent c : ι} {commits rest rest' : List ι} {events events' : List (RebaseEvent ι β)}
  {pending : Option ι}

/-- **Each commit is merged and then committed, in their order.** -/
theorem Progress.order (h : Progress parent commits events pending rest) :
    events.filterMap RebaseEvent.committed? ++ pending.toList ++ rest = commits
      ∧ events.filterMap RebaseEvent.merged?
        = events.filterMap RebaseEvent.committed? ++ pending.toList := by
  induction h with
  | start => exact ⟨rfl, rfl⟩
  | merged => exact ⟨rfl, rfl⟩
  | applied new _ ih =>
    refine ⟨?_, ?_⟩
    · exact congrArg (List.cons _) ih.1
    · exact congrArg (List.cons _) ih.2

/-- The commit that is stored is one of the commits, and those that are left are above it. -/
theorem Progress.exists_before (h : Progress parent commits events (some c) rest) :
    ∃ before, commits = before ++ c :: rest :=
  ⟨events.filterMap RebaseEvent.committed?, by rw [← h.order.1]; simp⟩

end

/-! ## A rebase under way -/

section

variable {ι β W P : Type}

/-- **A rebase is under way**: the branch that is rebased has its old head, and the references of
the work tree say which branch it is and where the work tree was before. -/
structure Rebasing (name wt : β) (head : ι) (s : WorktreeState ι β W) : Prop where
  headRefName : s.headRefName = .rebaseTmp
  branch : s.refs (.branch name) = some (.oid head)
  rebaseBranch : s.refs .rebaseBranch = some (.symref (.branch name))
  newBase : s.refs .newBase = some (.symref (.branch wt))
  rebaseTmp : ∃ id, s.refs .rebaseTmp = some (.oid id)

variable {name wt : β} {head : ι} {s : WorktreeState ι β W}

/-- What was stored for a commit can be changed, and the temporary branch. -/
theorem Rebasing.of_refs (h : Rebasing name wt head s) {s' : WorktreeState ι β W}
    (hhead : s'.headRefName = s.headRefName)
    (hrefs : ∀ n, n ≠ .rebaseTmp → n ≠ .rebaseCommit → s'.refs n = s.refs n)
    (htmp : ∃ id, s'.refs .rebaseTmp = some (.oid id)) : Rebasing name wt head s' where
  headRefName := hhead.trans h.headRefName
  branch := (hrefs (.branch name) nofun nofun).trans h.branch
  rebaseBranch := (hrefs .rebaseBranch nofun nofun).trans h.rebaseBranch
  newBase := (hrefs .newBase nofun nofun).trans h.newBase
  rebaseTmp := htmp

theorem rebaseTmp_ne_rebaseCommit : (.rebaseTmp : RefName β) ≠ .rebaseCommit := nofun

variable [DecidableEq β]

/-- A merge of a commit is a step of the rebase. -/
theorem Rebasing.merged (h : Rebasing name wt head s) (parent c : ι) (files : W) :
    Rebasing name wt head (mergedState s .rebaseCommit parent c files) := by
  obtain ⟨id, hid⟩ := h.rebaseTmp
  refine h.of_refs rfl (fun n _ hn => Refs.write_of_ne hn) ⟨id, ?_⟩
  show s.refs.write ⟨.rebaseCommit, .oid c⟩ .rebaseTmp = _
  rw [Refs.write_of_ne rebaseTmp_ne_rebaseCommit, hid]

end

/-! ## The steps -/

section

variable {ι β W P : Type} [LinearOrder ι] [DecidableEq β] {env : WorktreeFiles ι W P}
  {repo : Repository ι} {pathPrefix : List Name} {fuel : ℕ} {inOrder : W → Prop} {name wt : β}
  {head c t ycaId : ι} {pid : Option ι} {commits : List ι} {s : WorktreeState ι β W}

end

end Got

import Got.Error
import Got.Lib.Action

/-!
# References of a work tree

How far a rebase or a histedit operation has come is kept in references, which are named after
the work tree. They are the branch that is being written, the commit which is being merged, and
what has to be known to finish the operation or to give it up.

What an operation has open in memory is a reference too, and changing it there does not
change what is stored until it is written.
-/

namespace Got

/-- **The names of references**: those of branches, and those of one work tree. -/
inductive RefName (β : Type)
  | branch (name : β)
  /-- `GOT_WORKTREE_REBASE_TMP_REF_PREFIX` -/
  | rebaseTmp
  /-- `GOT_WORKTREE_NEWBASE_REF_PREFIX` -/
  | newBase
  /-- `GOT_WORKTREE_REBASE_BRANCH_REF_PREFIX` -/
  | rebaseBranch
  /-- `GOT_WORKTREE_REBASE_COMMIT_REF_PREFIX` -/
  | rebaseCommit
  /-- `GOT_WORKTREE_HISTEDIT_TMP_REF_PREFIX` -/
  | histeditTmp
  /-- `GOT_WORKTREE_HISTEDIT_BRANCH_REF_PREFIX` -/
  | histeditBranch
  /-- `GOT_WORKTREE_HISTEDIT_BASE_COMMIT_REF_PREFIX` -/
  | histeditBaseCommit
  /-- `GOT_WORKTREE_HISTEDIT_COMMIT_REF_PREFIX` -/
  | histeditCommit
  deriving DecidableEq

/-- What a reference points at. -/
inductive RefValue (ι β : Type)
  | oid (id : ι)
  | symref (target : RefName β)
  deriving DecidableEq

/-- `struct got_reference` -/
structure Reference (ι β : Type) where
  name : RefName β
  value : RefValue ι β

/-- **The references of the repository.** -/
abbrev Refs (ι β : Type) := RefName β → Option (RefValue ι β)

variable {ι β : Type}

/-- `got_ref_open` -/
def gotRefOpen (refs : Refs ι β) (name : RefName β) : Except GotErr (Reference ι β) :=
  match refs name with
  | none => .error .notRef
  | some value => .ok ⟨name, value⟩

/-- `got_ref_resolve`, where symbolic references are followed as often as is allowed for. -/
def gotRefResolve (refs : Refs ι β) : ℕ → Reference ι β → Except GotErr ι
  | _, ⟨_, .oid id⟩ => .ok id
  | 0, ⟨_, .symref _⟩ => .error .fuel
  | fuel + 1, ⟨_, .symref target⟩ => do
    let nextref ← gotRefOpen refs target
    gotRefResolve refs fuel nextref

/-- `got_ref_get_symref_target`, which is not `NULL`. -/
def gotRefGetSymrefTarget (ref : Reference ι β) : Except GotErr (RefName β) :=
  match ref.value with
  | .oid _ => .error .outOfMap
  | .symref target => .ok target

/-- `got_ref_change_ref`, in memory. -/
def gotRefChangeRef (ref : Reference ι β) (id : ι) : Except GotErr (Reference ι β) :=
  match ref.value with
  | .oid _ => .ok ⟨ref.name, .oid id⟩
  | .symref _ => .error .badRefType

variable [DecidableEq β]

namespace Refs

/-- `got_ref_write` -/
def write (refs : Refs ι β) (ref : Reference ι β) : Refs ι β :=
  Function.update refs ref.name (some ref.value)

/-- `got_ref_delete` -/
def delete (refs : Refs ι β) (name : RefName β) : Refs ι β := Function.update refs name none

variable {refs : Refs ι β} {ref : Reference ι β} {name : RefName β}

@[simp] theorem write_of_ne {value : RefValue ι β} {other : RefName β} (h : name ≠ other) :
    refs.write ⟨other, value⟩ name = refs name := Function.update_of_ne h _ _

end Refs

/-! ## Opening references -/

variable {refs : Refs ι β} {name : RefName β}

omit [DecidableEq β] in
theorem gotRefOpen_some {value : RefValue ι β} (h : refs name = some value) :
    gotRefOpen refs name = .ok ⟨name, value⟩ := by
  rw [gotRefOpen, h]

omit [DecidableEq β] in
theorem gotRefResolve_oid (refs : Refs ι β) (fuel : ℕ) (name : RefName β) (id : ι) :
    gotRefResolve refs fuel ⟨name, .oid id⟩ = .ok id := by
  cases fuel <;> rfl

end Got

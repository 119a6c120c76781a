import Got.Object

/-!
# Files to be committed

A commit is made of a list of files in some status, which were collected from
the work tree before (`struct got_commitable`). A file may be staged, and then
it is the staged status that counts. What is to happen with a file is its
`Change`: it is added, modified, or deleted.
-/

namespace Got

/-- The status of a file, as in `got_worktree.h`. -/
inductive Status
  | noChange
  | add
  | alreadyExists
  | update
  | delete
  | modify
  | modeChange
  | conflict
  | merge
  | missing
  | unversioned
  | obstructed
  | nonexistent
  | revert
  | cannotDelete
  | bumpBase
  | baseRefErr
  | cannotUpdate
  deriving DecidableEq, Repr

/-- **The statuses in which files are collected.** A file that is not staged is
added, modified, or deleted. A staged one may have been changed again on disk,
but a file with a staged modification is not an added one, and a file that is
staged for deletion is not on disk as far as the status goes. -/
def CommitStatus (status stagedStatus : Status) : Prop :=
  match stagedStatus with
  | .noChange => status = .modify ∨ status = .modeChange ∨ status = .add ∨ status = .delete
  | .add => True
  | .modify => status ≠ .add
  | .delete => status ≠ .add ∧ status ≠ .modify ∧ status ≠ .modeChange
  | _ => False

instance (status stagedStatus : Status) : Decidable (CommitStatus status stagedStatus) := by
  unfold CommitStatus
  split <;> infer_instance

/-- **A file to be committed.** The ids are null where there is no object. -/
structure Commitable where
  /-- The directory of the repository that the work tree shows. -/
  pathPrefix : List Name
  /-- The path in the work tree. -/
  relpath : List Name
  mode : UInt32
  status : Status
  stagedStatus : Status
  blobId : Option Object
  baseBlobId : Option Object
  stagedBlobId : Option Object
  baseCommitId : Option CommitId
  relpath_ne : relpath ≠ []
  commitStatus : CommitStatus status stagedStatus
  deriving DecidableEq

namespace Commitable

/-- `ct->path`, in the work tree. -/
def path (ct : Commitable) : Str := '/' :: relPath ct.relpath

/-- `ct->in_repo_path` -/
def inRepoPath (ct : Commitable) : Str := joinPath (absPath ct.pathPrefix) (relPath ct.relpath)

/-- The names of the path in the repository. -/
def names (ct : Commitable) : List Name := ct.pathPrefix ++ ct.relpath

theorem names_ne (ct : Commitable) : ct.names ≠ [] :=
  List.append_ne_nil_of_right_ne_nil _ ct.relpath_ne

theorem path_eq (ct : Commitable) : ct.path = absPath ct.relpath := by
  obtain ⟨n, rest, h⟩ := List.exists_cons_of_ne_nil ct.relpath_ne
  rw [path, absPath_of_ne_nil ct.relpath_ne, h, slashed_cons]

/-- The path in the repository is the absolute path of the commitable's names. -/
theorem inRepoPath_eq (ct : Commitable) : ct.inRepoPath = absPath ct.names := by
  obtain ⟨n, rest, h⟩ := List.exists_cons_of_ne_nil ct.relpath_ne
  rw [absPath_of_ne_nil ct.names_ne, names, slashed_append, h, slashed_cons, ← h, inRepoPath,
    joinPath]
  cases ct.pathPrefix with
  | nil => rfl
  | cons p ps =>
    rw [if_neg (fun hr => List.cons_ne_nil p ps ((gotPathIsRootDir_absPath _).mp hr)),
      absPath_of_ne_nil (List.cons_ne_nil p ps), List.append_assoc]
    rfl

/-- The last name of both paths. -/
theorem relpath_of_names {ct : Commitable} {parent : List Name} {n : Name}
    (h : ct.names = parent ++ [n]) : ∃ dirs, ct.relpath = dirs ++ [n] := by
  obtain ⟨dirs, m, hm⟩ : ∃ dirs m, ct.relpath = dirs ++ [m] := by
    rcases List.eq_nil_or_concat ct.relpath with hnil | ⟨dirs, m, hm⟩
    · exact absurd hnil ct.relpath_ne
    · exact ⟨dirs, m, hm.trans List.concat_eq_append⟩
  rw [names, hm, ← List.append_assoc] at h
  obtain ⟨-, hlast⟩ := List.append_inj' h rfl
  exact ⟨dirs, by rw [hm, hlast]⟩

end Commitable

/-! ## Changes -/

/-- What a commit is to do with a file. -/
inductive Change
  | add
  | modify
  | delete
  deriving DecidableEq, Repr

namespace Commitable

/-- **The change a file stands for**: its staged status, or else its status. -/
def change (ct : Commitable) : Change :=
  match if ct.stagedStatus ≠ .noChange then ct.stagedStatus else ct.status with
  | .add => .add
  | .delete => .delete
  | _ => .modify

/-- The blob with the new content. -/
def newBlob (ct : Commitable) : Option Object :=
  if ct.stagedStatus = .add ∨ ct.stagedStatus = .modify then ct.stagedBlobId else ct.blobId

/-- The kind of tree entry it is to be. -/
def kind (ct : Commitable) : EntryKind :=
  if S_ISLNK ct.mode then .symlink
  else if ct.mode &&& (S_IXUSR ||| S_IXGRP ||| S_IXOTH) ≠ 0 then .executable
  else .regular

/-- **The file that is to be at its path** in the new tree. -/
def effect (ct : Commitable) : Option File :=
  if ct.change = .delete then none else ct.newBlob.map (fun id => (some ct.kind, id))

end Commitable

end Got

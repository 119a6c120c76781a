import Got.CommitGraph.Repository

/-!
# Following history in a pack

The process that reads a pack can be asked to follow the first-parent history
of a commit, as far as the pack has it and until it comes to a commit that
changed a path. It answers with the ids of the commits it has come through, in
messages of a limited size; the last id of the last message is where it
stopped, for whatever reason.

The process has its own way to find out whether a path was changed
(`treePathChanged`). It compares modes as they are, gives up as soon as an entry
is missing on either side, and only looks at trees which are in the pack.
-/

namespace Got

namespace ReadPack

variable {ι : Type} (repo : Repository ι)

/-- The loop of `tree_path_changed` over the segments of a path. -/
def treePathChangedLoop (entries1 entries2 : List TreeEntry) : List Name → Except GotErr Bool
  | [] => .ok false
  | seg :: segs =>
    match findEntryByName entries1 seg.val with
    | none => .error .noObj
    | some pte1 =>
      match findEntryByName entries2 seg.val with
      | none => .ok true
      | some pte2 =>
        if pte1.mode ≠ pte2.mode then .ok true
        else if pte1.id = pte2.id then .ok false
        else if segs = [] then .ok true
        else if repo.packidxHasTree pte1.id = false then .error .noObj
        else do
          let next1 ← gotObjectOpenAsTree pte1.id
          if repo.packidxHasTree pte2.id = false then .error .noObj
          else
            let next2 ← gotObjectOpenAsTree pte2.id
            treePathChangedLoop next1 next2 segs

/-- `tree_path_changed` -/
def treePathChanged (entries1 entries2 : List TreeEntry) (path : List Name) :
    Except GotErr Bool :=
  if path = [] then .error .badPath else treePathChangedLoop repo entries1 entries2 path

/-! ## The request -/

def MAX_IMSGSIZE : ℕ := 16384
def IMSG_HEADER_SIZE : ℕ := 16
/-- `sizeof(struct got_imsg_traversed_commits)` -/
def SIZEOF_TRAVERSED_COMMITS : ℕ := 8

/-- **What was traversed so far**: the messages that were sent, and the ids of
the message that is being put together. -/
structure Traversed (ι : Type) where
  sent : List (List ι)
  commitIds : List ι

/-- Note a commit. A message that is full is sent before. -/
def Traversed.note (t : Traversed ι) (id : ι) : Traversed ι :=
  if SIZEOF_TRAVERSED_COMMITS + t.commitIds.length * SHA1_DIGEST_LENGTH
      ≥ MAX_IMSGSIZE - IMSG_HEADER_SIZE
  then ⟨t.sent ++ [t.commitIds], [id]⟩
  else { t with commitIds := t.commitIds ++ [id] }

/-- Whether the commit changed the path that is of interest, or where it is
not known because the pack does not have what one would have to look at. -/
def commitChanged (commit pcommit : CommitObject ι) (path : List Name) :
    Except GotErr (Option Bool) :=
  if path = [] then .ok (some (pcommit.treeId ≠ commit.treeId))
  else if repo.packidxHasTree commit.treeId = false then .ok none
  else if repo.packidxHasTree pcommit.treeId = false then .ok none
  else do
    let entries ← gotObjectOpenAsTree commit.treeId
    let pentries ← gotObjectOpenAsTree pcommit.treeId
    match treePathChanged repo entries pentries path with
    | .error .noObj => .ok none
    | .error e => .error e
    | .ok changed => .ok (some changed)

/-- The loop of `commit_traversal_request`, at a commit that is open. -/
def traversalLoop (path : List Name) :
    ℕ → ι → CommitObject ι → Traversed ι → Except GotErr (Traversed ι)
  | 0, _, _, _ => .error .fuel
  | fuel + 1, id, commit, t =>
    let t := t.note id
    match commit.parentIds.head? with
    | none => .ok t
    | some pid =>
      if repo.packidxHasCommit pid = false then .ok t
      else
        match repo.gotObjectOpenAsCommit pid with
        | .error .noObj => .ok t
        | .error e => .error e
        | .ok pcommit => do
          match ← commitChanged repo commit pcommit path with
          | some false => traversalLoop path fuel pid pcommit t
          | _ => .ok t

/-- **`commit_traversal_request`**: the messages with the ids of the commits that
were traversed. -/
def commitTraversalRequest (fuel : ℕ) (id : ι) (path : List Name) :
    Except GotErr (List (List ι)) :=
  if repo.packidxHasCommit id = false then .ok []
  else
    match repo.gotObjectOpenAsCommit id with
    | .error .noObj => .ok []
    | .error e => .error e
    | .ok commit => do
      let t ← traversalLoop repo path fuel id commit ⟨[], []⟩
      return if t.commitIds = [] then t.sent else t.sent ++ [t.commitIds]

end ReadPack

/-- **`got_traverse_packed_commits`**, which asks only for a commit that is in a
pack, and puts what it is sent in a queue. -/
def Repository.gotTraversePackedCommits {ι : Type} (repo : Repository ι) (fuel : ℕ) (commitId : ι)
    (path : List Name) : Except GotErr (List ι) :=
  if repo.packidxHasCommit commitId = false then .ok []
  else do
    let messages ← ReadPack.commitTraversalRequest repo fuel commitId path
    return messages.flatten

end Got

import Got.FileIndex.File
import Got.Worktree.Status
import Got.Worktree.WriteTree

/-!
# Committing

`got_worktree_commit` collects the files to be committed, checks that none of
them is out of date, creates blobs and trees and a commit of them, and records
in the file index what was committed. What it does to the reference of the
branch is not here: the steps between which other processes can come are put
together where they are interleaved.
-/

namespace Got

/-! ## Symlinks that lead out of the work tree -/

/-- Where a symlink leads. -/
def symlinkTargetPath (targetPath ondiskPath : Str) : Except GotErr Str :=
  if targetPath.head? = some '/' then gotCanonpath targetPath
  else do
    let parent ← gotPathDirname ondiskPath
    if PATH_MAX ≤ (parent ++ '/' :: targetPath).length then .error .badPath
    else gotCanonpath (parent ++ '/' :: targetPath)

/-- **Whether a symlink is bad**: it leads out of the work tree, or into the
directory `.got`. -/
def isBadSymlinkTarget (targetPath : Str) (targetLen : ℕ) (ondiskPath wtrootPath : Str) :
    Except GotErr Bool :=
  if PATH_MAX ≤ targetLen then .ok true
  else do
    let canonpath ← symlinkTargetPath targetPath ondiskPath
    return ¬gotPathIsChild canonpath wtrootPath
      ∨ gotPathIsChild canonpath (wtrootPath ++ ['/', '.', 'g', 'o', 't'])

/-! ## Files to be committed -/

/-- **A work tree.** -/
structure Worktree where
  rootPath : Str
  pathPrefix : List Name
  baseCommitId : Commit
  fileindex : List FileIndexEntry
  disk : Disk

namespace Worktree

/-- The path of a file on disk. -/
def ondiskPath (wt : Worktree) (relpath : RelPath) : Str := wt.rootPath ++ '/' :: relPath relpath

/-- `lstat` -/
def lstat (wt : Worktree) (relpath : RelPath) : Except GotErr Inode :=
  match wt.disk relpath with
  | none => .error (.errno .noent)
  | some sb => .ok sb

/-- Whether `check_staged_file` comes upon a file that is staged. -/
def haveStagedFiles (wt : Worktree) : Bool := wt.fileindex.any (fun ie => ie.stage ≠ .none)

end Worktree

/-- Refuse a symlink that is bad. What is behind its target in the buffer is
taken for a part of it. -/
def checkSymlink (host : Host) (wt : Worktree) (relpath : RelPath) : Except GotErr Unit := do
  let sb ← wt.lstat relpath
  match sb.node with
  | .symlink target =>
    let isBad ← isBadSymlinkTarget (cString (target ++ host.behindTarget relpath)) target.length
      (wt.ondiskPath relpath) wt.rootPath
    if isBad then .error .badSymlink else .ok ()
  | _ => .error (.errno .inval)

/-- Added symlinks are checked where they are committed as they are on disk. -/
def checkAddedSymlink (host : Host) (wt : Worktree) (allowBadSymlinks : Bool)
    (status stagedStatus : Status) (relpath : RelPath) (mode : UInt32) : Except GotErr Unit :=
  if S_ISLNK mode ∧ stagedStatus = .noChange ∧ status = .add ∧ ¬allowBadSymlinks
  then checkSymlink host wt relpath else .ok ()

/-- The mode of a file that is staged. -/
def stagedMode (ie : FileIndexEntry) : Except GotErr UInt32 :=
  match ie.stagedFiletype with
  | .regularFile => .ok (S_IFREG ||| ie.perms)
  | .badSymlink => .ok (S_IFREG ||| ie.perms)
  | .symlink => .ok (S_IFLNK ||| ie.perms)
  | .none => .error .badFiletype

/-- **The mode to be committed**: that of the staged file, or of the file on
disk. -/
def commitableMode (wt : Worktree) (status stagedStatus : Status) (relpath : RelPath) :
    Except GotErr UInt32 :=
  if stagedStatus = .add ∨ stagedStatus = .modify then do
    let ie ← deref (gotFileindexEntryGet wt.fileindex relpath)
    stagedMode ie
  else if status ≠ .delete ∧ stagedStatus ≠ .delete then do
    let sb ← wt.lstat relpath
    return sb.mode
  else .ok 0

/-- Whether a file is to be committed, given whether any file is staged. -/
def isCollected (haveStagedFiles : Bool) (status stagedStatus : Status) : Prop :=
  if haveStagedFiles then
    stagedStatus = .modify ∨ stagedStatus = .add ∨ stagedStatus = .delete
  else status = .modify ∨ status = .modeChange ∨ status = .add ∨ status = .delete

instance (haveStagedFiles : Bool) (status stagedStatus : Status) :
    Decidable (isCollected haveStagedFiles status stagedStatus) := by
  unfold isCollected
  split <;> infer_instance

/-- An id is copied unless there was nothing to copy it from. -/
def baseId {α : Type} (status stagedStatus : Status) (id : Option α) : Except GotErr (Option α) :=
  if status ≠ .add ∧ stagedStatus ≠ .add then do
    let id ← deref id
    return some id
  else .ok none

/-- The id of the staged blob, where there is one. -/
def stagedId (stagedStatus : Status) (stagedBlobId : Option Object) :
    Except GotErr (Option Object) :=
  if stagedStatus = .add ∨ stagedStatus = .modify then do
    let id ← deref stagedBlobId
    return some id
  else .ok none

/-- **A new file to be committed.** The last case does not occur: no entry of a
file index has such a status. -/
def newCommitable (host : Host) (wt : Worktree) (allowBadSymlinks : Bool)
    (status stagedStatus : Status) (relpath : RelPath) (blobId stagedBlobId : Option Object)
    (commitId : Option CommitId) : Except GotErr Commitable := do
  let _ ← gotPathDirname ('/' :: relPath relpath)
  let mode ← commitableMode wt status stagedStatus relpath
  checkAddedSymlink host wt allowBadSymlinks status stagedStatus relpath mode
  let baseBlobId ← baseId status stagedStatus blobId
  let baseCommitId ← baseId status stagedStatus commitId
  let stagedBlobId ← stagedId stagedStatus stagedBlobId
  if h : CommitStatus status stagedStatus then
    return {
      pathPrefix := wt.pathPrefix
      relpath := relpath
      mode, status, stagedStatus
      blobId := none
      baseBlobId, stagedBlobId, baseCommitId
      relpath_ne := relPath_ne_nil relpath
      commitStatus := h }
  else .error .outOfMap

/-- **`collect_commitables`**, a callback for the status of files. -/
def collectCommitables (host : Host) (wt : Worktree) (haveStagedFiles allowBadSymlinks : Bool) :
    StatusCb (List Commitable) :=
  fun status stagedStatus relpath blobId stagedBlobId commitId commitablePaths =>
    if ¬haveStagedFiles ∧ status = .conflict then .error .commitConflict
    else if ¬isCollected haveStagedFiles status stagedStatus then .ok commitablePaths
    else do
      let ct ← newCommitable host wt allowBadSymlinks status stagedStatus relpath blobId
        stagedBlobId commitId
      return (gotPathlistInsert Commitable.path commitablePaths ct).getD commitablePaths

/-! ## Files that are out of date -/

/-- **`check_out_of_date`**: the branch head must have the file as it was when
it was changed here, and must not have it if it was added here. -/
def checkOutOfDate (inRepoPath : List Name) (status stagedStatus : Status)
    (baseBlobId : Option Object) (baseCommitId : Option CommitId) (headCommitId : Commit)
    (oodErrcode : GotErr) : Except GotErr Unit :=
  if status ≠ .add ∧ stagedStatus ≠ .add then do
    let baseCommitId ← deref baseCommitId
    if baseCommitId = some headCommitId then .ok ()
    else
      match gotObjectIdByPath headCommitId inRepoPath with
      | .error e => .error (if e = .noTreeEntry then oodErrcode else e)
      | .ok id => do
        let baseBlobId ← deref baseBlobId
        if id ≠ baseBlobId then .error oodErrcode else .ok ()
  else
    match gotObjectIdByPath headCommitId inRepoPath with
    | .error e => if e = .noTreeEntry then .ok () else .error e
    | .ok _ => .error oodErrcode

/-- A path that was given must be of a file that is staged. -/
def checkNonStagedFile (fileindex : List FileIndexEntry) (path : List Name) : Except GotErr Unit :=
  if h : path = [] then .ok ()
  else
    match gotFileindexEntryGet fileindex ⟨path, h⟩ with
    | none => .error .badPath
    | some ie => if ie.stage = .none then .error .fileNotStaged else .ok ()

/-- With something staged, no path that is not staged may be committed. -/
def checkNonStagedFiles (wt : Worktree) (paths : List (List Name)) : Except GotErr Unit :=
  if wt.haveStagedFiles then paths.forM (checkNonStagedFile wt.fileindex) else .ok ()

/-- A path that is asked for must be one that has something to commit. -/
def checkPathIsCommitable (path : List Name) (commitablePaths : List Commitable) :
    Except GotErr Unit :=
  if commitablePaths.any (fun ct => path <+: ct.relpath) then .ok () else .error .badPath

/-- **The files a commit is made of**, given the branch head. -/
def commitables (host : Host) (wt : Worktree) (headCommitId : Commit) (paths : List (List Name))
    (allowBadSymlinks : Bool) : Except GotErr (List Commitable) := do
  checkNonStagedFiles wt paths
  let cts ← paths.foldlM (fun cts path => worktreeStatus host wt.disk wt.fileindex
    (collectCommitables host wt wt.haveStagedFiles allowBadSymlinks) path cts) []
  if cts = [] then .error .commitNoChanges
  else do
    paths.forM (checkPathIsCommitable · cts)
    cts.forM (fun ct => checkOutOfDate ct.names ct.status ct.stagedStatus ct.baseBlobId
      ct.baseCommitId headCommitId .commitOutOfDate)
    return cts

/-! ## Creating the objects -/

/-- Create the blob of a file. Blobs for staged files already exist. -/
def createBlob (wt : Worktree) (ct : Commitable) : Except GotErr Commitable :=
  if ct.stagedStatus = .add ∨ ct.stagedStatus = .modify then .ok ct
  else if ct.status ≠ .add ∧ ct.status ≠ .modify ∧ ct.status ≠ .modeChange then .ok ct
  else do
    let sb ← wt.lstat ⟨ct.relpath, ct.relpath_ne⟩
    let data ← sb.data
    return { ct with blobId := some (.blob data) }

/-- **The objects of a commit.** Its tree is that of the branch head with the
files applied; its parent is what the work tree is based on. -/
def createCommit (wt : Worktree) (headCommitId : Commit) (cts : List Commitable)
    (info : CommitInfo) : Except GotErr (Commit × List Commitable) :=
  if info.logmsg = [] then .error .commitMsgEmpty
  else do
    let cts ← cts.mapM (createBlob wt)
    let (newTreeId, _, _) ← writeRootTree headCommitId.treeId cts
    return (.mk newTreeId (.cons wt.baseCommitId .nil) info, cts)

/-! ## After a commit -/

/-- What becomes of an entry whose file was committed. -/
def entryAfterCommit (disk : Disk) (ie : FileIndexEntry) (ct : Commitable)
    (newBaseCommitId : Commit) (haveStagedFiles : Bool) : Except GotErr FileIndexEntry :=
  if ct.stagedStatus = .add ∨ ct.stagedStatus = .modify then do
    let id ← deref ct.stagedBlobId
    { ie with stage := .none, stagedFiletype := .none }.update (disk ie.path) (some id)
      (some (some newBaseCommitId)) (¬haveStagedFiles)
  else do
    let id ← deref ct.blobId
    ie.update (disk ie.path) (some id) (some (some newBaseCommitId)) (¬haveStagedFiles)

/-- **`update_fileindex_after_commit`**, for one file. -/
def updateFileindexAfterCommit (disk : Disk) (newBaseCommitId : Commit) (haveStagedFiles : Bool)
    (fileindex : List FileIndexEntry) (ct : Commitable) : Except GotErr (List FileIndexEntry) :=
  match gotFileindexEntryGet fileindex ⟨ct.relpath, ct.relpath_ne⟩ with
  | some ie =>
    if ct.status = .delete ∨ ct.stagedStatus = .delete then
      .ok (gotFileindexEntryRemove fileindex ie)
    else do
      let ie ← entryAfterCommit disk ie ct newBaseCommitId haveStagedFiles
      return replaceEntry fileindex ie
  | none => do
    let id ← deref ct.blobId
    let ie ← { path := ⟨ct.relpath, ct.relpath_ne⟩ : FileIndexEntry }.update (disk ct.relpath)
      (some id) (some (some newBaseCommitId)) true
    return gotFileindexEntryAdd fileindex ie

/-- **`got_worktree_commit`**, while nothing else happens to the branch: its
head is the one that was read at the start. -/
def gotWorktreeCommit (host : Host) (wt : Worktree) (headCommitId : Commit)
    (paths : List (List Name)) (allowBadSymlinks : Bool) (info : CommitInfo) :
    Except GotErr (Commit × Worktree) := do
  let cts ← commitables host wt headCommitId paths allowBadSymlinks
  let (newCommitId, cts) ← createCommit wt headCommitId cts info
  let fileindex ← cts.foldlM
    (updateFileindexAfterCommit wt.disk newCommitId wt.haveStagedFiles) wt.fileindex
  return (newCommitId, { wt with baseCommitId := newCommitId, fileindex })

end Got

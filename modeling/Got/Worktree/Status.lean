import Got.Worktree.FileIndex

/-!
# The status of files

What has become of a versioned file is found out by comparing its entry in the
file index with the disk. If what `lstat` gives is what was recorded, the file
is taken to be unmodified. Otherwise its content is compared with that of its
blob.

The status of all files below a path is reported to a callback, in the order of
the file index. A file that is not versioned is reported too, but each callback
that is modelled leaves at once for these, unless the path of such a file was
given by itself.
-/

namespace Got

/-! ## Blobs -/

/-- **The machine**, as far as it shows: how long the header in front of the
content of a blob is, which depends on how the repository has stored it, and
what a buffer on the stack holds behind a target that `readlink` has put
there without a zero at its end. -/
structure Host where
  hdrlen : Object → ℕ
  behindTarget : RelPath → Bytes

/-! ## The status of one file -/

namespace FileIndexEntry

/-- What is staged of an entry. -/
def stagedStatus (ie : FileIndexEntry) : Status :=
  match ie.stage with
  | .add => .add
  | .delete => .delete
  | .modify => .modify
  | .none => .noChange

/-- Whether the executable bit differs from the one on disk. -/
def xbitDiffers (ie : FileIndexEntry) (stMode : UInt32) : Bool :=
  ie.permsToSt &&& S_IXUSR ≠ stMode &&& S_IXUSR

/-- Whether what `stat` says differs from what the index recorded. -/
def statInfoDiffers (ie : FileIndexEntry) (sb : Inode) : Bool :=
  ¬(ie.ctim = sb.ctim ∧ ie.mtim = sb.mtim ∧ ie.size = sb.size ∧ ¬ie.xbitDiffers sb.mode)

end FileIndexEntry

def GOT_DIFF_CONFLICT_MARKER_BEGIN : Bytes := List.replicate 7 0x3c
def GOT_DIFF_CONFLICT_MARKER_SEP : Bytes := List.replicate 7 0x3d
def GOT_DIFF_CONFLICT_MARKER_END : Bytes := List.replicate 7 0x3e

/-- Whether some lines begin with the given markers, in their order. -/
def findMarkers : List Bytes → List Bytes → Bool
  | _, [] => true
  | [], _ :: _ => false
  | line :: lines, marker :: markers =>
    if marker <+: line then findMarkers lines markers else findMarkers lines (marker :: markers)

/-- **`get_modified_file_content_status`**: a modified file is in conflict if
conflict markers are found. -/
def getModifiedFileContentStatus (content : Bytes) : Status :=
  if findMarkers (content.splitOn 0x0a) [GOT_DIFF_CONFLICT_MARKER_BEGIN,
      GOT_DIFF_CONFLICT_MARKER_SEP, GOT_DIFF_CONFLICT_MARKER_END]
  then .conflict else .modify

/-- A symlink is modified if its target is not what the blob says. -/
def getSymlinkModificationStatus (hdrlen : ℕ) (target content : Bytes) : Except GotErr Status :=
  if PATH_MAX ≤ hdrlen + content.length then .error .noSpace
  else .ok (if target ≠ content then .modify else .noChange)

/-- The status of a regular file, by its content. -/
def getRegularFileStatus (ie : FileIndexEntry) (sb : Inode) (data content : Bytes) : Status :=
  if data ≠ content then getModifiedFileContentStatus data
  else if ie.xbitDiffers sb.mode then .modeChange
  else .noChange

/-- **The status of a file** whose entry in the file index, and whose node on
disk, are given. -/
def getFileStatus (host : Host) (ie : FileIndexEntry) (ondisk : Option Inode) :
    Except GotErr Status :=
  match ondisk with
  | none => .ok (if ie.hasFileOnDisk then .missing else .delete)
  | some sb =>
    if ¬S_ISREG sb.mode ∧ ¬S_ISLNK sb.mode then .ok .obstructed
    else if ¬ie.hasFileOnDisk then .ok .delete
    else if ¬ie.hasBlob ∧ ie.stagedStatus ≠ .add then .ok .add
    else if ¬ie.statInfoDiffers sb then .ok .noChange
    else if S_ISLNK sb.mode ∧ ie.filetype ≠ .symlink then .ok .modify
    else do
      let id := if ie.stagedStatus = .modify ∨ ie.stagedStatus = .add
        then ie.stagedBlobSha1 else ie.blobSha1
      let content ← gotObjectOpenAsBlob id
      let data ← sb.data
      if S_ISLNK sb.mode then getSymlinkModificationStatus (host.hdrlen id) data content
      else return getRegularFileStatus ie sb data content

/-! ## The status of a work tree -/

/-- **A callback** for the status of a file: its status and its staged status,
its path, and the ids of its blob, its staged blob and its commit. -/
abbrev StatusCb (σ : Type) :=
  Status → Status → RelPath → Option Object → Option Object → Option CommitId → σ → Except GotErr σ

section WorktreeStatus

variable {σ : Type} (host : Host) (disk : Disk) (fileindex : List FileIndexEntry) (cb : StatusCb σ)

/-- Reports the status of an entry, unless nothing changed and nothing is staged. -/
def reportFileStatus (s : σ) (ie : FileIndexEntry) : Except GotErr σ := do
  let status ← getFileStatus host ie (disk ie.path)
  if status = .noChange ∧ ie.stagedStatus = .noChange then return s
  else
    cb status ie.stagedStatus ie.path (if ie.hasBlob then some ie.blobSha1 else none)
      (if ie.stagedStatus = .add ∨ ie.stagedStatus = .modify then some ie.stagedBlobSha1 else none)
      (if ie.hasCommit then some ie.commitSha1 else none) s

/-- An entry without a file on disk. -/
def statusOld (s : σ) (ie : FileIndexEntry) : Except GotErr σ :=
  cb (if ie.hasFileOnDisk then .missing else .delete) ie.stagedStatus ie.path (some ie.blobSha1)
    none (some ie.commitSha1) s

/-- The walk through the file index and the directories on disk. -/
def statusWalk (s : σ) (ie : FileIndexEntry) : Except GotErr σ :=
  match disk ie.path with
  | none => statusOld cb s ie
  | some _ => reportFileStatus host disk cb s ie

/-- Reports the status of one path that was asked for. -/
def reportSingleFileStatus (path : RelPath) (s : σ) : Except GotErr σ :=
  match gotFileindexEntryGet fileindex path with
  | some ie => reportFileStatus host disk cb s ie
  | none =>
    match disk path with
    | none => cb .nonexistent .noChange path none none none s
    | some sb =>
      if S_ISREG sb.mode ∨ S_ISLNK sb.mode then cb .unversioned .noChange path none none none s
      else .ok s

/-- Whether there is a directory at the path. -/
def isDirectory (path : List Name) : Bool := ((disk path).map Inode.mode).any S_ISDIR

/-- The entries below a path. -/
def entriesBelow (path : List Name) : List FileIndexEntry :=
  fileindex.filter (fun ie => path <+: ie.path ∧ path ≠ ie.path)

/-- **`worktree_status`** for a path: a directory, or a single file. -/
def worktreeStatus (path : List Name) (s : σ) : Except GotErr σ :=
  if h : path = [] ∨ isDirectory disk path then
    (entriesBelow fileindex path).foldlM (fun s ie => statusWalk host disk cb s ie) s
  else reportSingleFileStatus host disk fileindex cb ⟨path, fun hp => h (Or.inl hp)⟩ s

end WorktreeStatus

/-! ## What a callback keeps -/

/-- **What is reported to a callback**: the status of an entry, or that of a path without one. -/
inductive StatusReport (host : Host) (disk : Disk) (fileindex : List FileIndexEntry) :
    Status → Status → RelPath → Option Object → Option Object → Option CommitId → Prop
  | file {ie : FileIndexEntry} {status : Status} (mem : ie ∈ fileindex)
    (status_eq : getFileStatus host ie (disk ie.path) = .ok status) :
    StatusReport host disk fileindex status ie.stagedStatus ie.path
      (if ie.hasBlob then some ie.blobSha1 else none)
      (if ie.stagedStatus = .add ∨ ie.stagedStatus = .modify then some ie.stagedBlobSha1 else none)
      (if ie.hasCommit then some ie.commitSha1 else none)
  | old {ie : FileIndexEntry} (mem : ie ∈ fileindex) (gone : disk ie.path = none) :
    StatusReport host disk fileindex (if ie.hasFileOnDisk then .missing else .delete)
      ie.stagedStatus ie.path (some ie.blobSha1) none (some ie.commitSha1)
  | noEntry {status : Status} (path : RelPath) (h : status = .nonexistent ∨ status = .unversioned) :
    StatusReport host disk fileindex status .noChange path none none none

section Keeps

variable {σ : Type} {host : Host} {disk : Disk} {fileindex : List FileIndexEntry}
  {cb : StatusCb σ} {P : σ → Prop}

/-- A report keeps what its callback keeps. -/
theorem reportFileStatus_keeps
    (hcb : ∀ status stagedStatus path blobId stagedBlobId commitId s s',
      StatusReport host disk fileindex status stagedStatus path blobId stagedBlobId commitId → P s →
      cb status stagedStatus path blobId stagedBlobId commitId s = .ok s' → P s')
    {s s' : σ} {ie : FileIndexEntry} (hie : ie ∈ fileindex) (hs : P s)
    (h : reportFileStatus host disk cb s ie = .ok s') : P s' := by
  obtain ⟨status, hstatus, h⟩ := bind_eq_ok_iff.mp h
  split at h
  · obtain rfl := Except.ok.inj h
    exact hs
  · exact hcb _ _ _ _ _ _ _ _ (.file hie hstatus) hs h

/-- **What a callback keeps** holds after the status of any path. -/
theorem worktreeStatus_keeps
    (hcb : ∀ status stagedStatus path blobId stagedBlobId commitId s s',
      StatusReport host disk fileindex status stagedStatus path blobId stagedBlobId commitId → P s →
      cb status stagedStatus path blobId stagedBlobId commitId s = .ok s' → P s')
    {path : List Name} {s s' : σ} (hs : P s)
    (h : worktreeStatus host disk fileindex cb path s = .ok s') : P s' := by
  unfold worktreeStatus at h
  split at h
  · refine foldlM_keeps (fun s hs ie hie s' h => ?_) hs h
    have hmem : ie ∈ fileindex := List.mem_of_mem_filter hie
    unfold statusWalk at h
    split at h
    · exact hcb _ _ _ _ _ _ _ _ (.old hmem ‹_›) hs h
    · exact reportFileStatus_keeps hcb hmem hs h
  · unfold reportSingleFileStatus at h
    split at h
    · exact reportFileStatus_keeps hcb (List.mem_of_find?_eq_some ‹_›) hs h
    · split at h
      · exact hcb _ _ _ _ _ _ _ _ (.noEntry _ (Or.inl rfl)) hs h
      · split at h
        · exact hcb _ _ _ _ _ _ _ _ (.noEntry _ (Or.inr rfl)) hs h
        · obtain rfl := Except.ok.inj h
          exact hs

end Keeps

/-! ## The status of one path -/

section OneFile

variable {σ : Type} {host : Host} {disk : Disk} {fileindex : List FileIndexEntry}
  {cb : StatusCb σ} {ie : FileIndexEntry} {status : Status} {s : σ}

/-- What has a status, and is not obstructed, is not a directory. -/
theorem not_dir_of_getFileStatus (hstatus : getFileStatus host ie (disk ie.path) = .ok status)
    (hne : status ≠ .obstructed) {sb : Inode} (hsb : disk ie.path = some sb) : sb.node ≠ .dir := by
  intro hdir
  rw [hsb] at hstatus
  have hfile : ¬S_ISREG sb.mode ∧ ¬S_ISLNK sb.mode := by
    rw [Inode.isReg_iff, Inode.isLnk_iff, hdir]
    exact ⟨fun ⟨_, h⟩ => (nomatch h), fun ⟨_, h⟩ => (nomatch h)⟩
  unfold getFileStatus at hstatus
  dsimp only at hstatus
  rw [if_pos hfile] at hstatus
  exact hne (Except.ok.inj hstatus).symm

/-- **The status of a path that has an entry** is reported as that of its file. -/
theorem worktreeStatus_file (hget : gotFileindexEntryGet fileindex ie.path = some ie)
    (hdir : ∀ sb, disk ie.path = some sb → sb.node ≠ .dir) :
    worktreeStatus host disk fileindex cb ie.path s = reportFileStatus host disk cb s ie := by
  have hfile : ¬(ie.path.val = [] ∨ isDirectory disk ie.path) := by
    rintro (hnil | hdir')
    · exact ie.path.property hnil
    · unfold isDirectory at hdir'
      rw [Option.any_map, Option.any_eq_true] at hdir'
      obtain ⟨sb, hsb, hmode⟩ := hdir'
      exact hdir sb hsb (sb.isDir_iff.mp hmode)
  rw [worktreeStatus, dif_neg hfile, reportSingleFileStatus, hget]

end OneFile

end Got

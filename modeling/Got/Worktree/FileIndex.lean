import Got.Worktree.Commitable

/-!
# The disk and the file index

A work tree is a directory on disk. Its file index has an entry for each
versioned file, with the blob and the commit the file is from, and with what
`lstat` said about the file when the entry was last updated. Only that lets
the code know later whether a file is still as it was.

The disk is a function from paths below the root of the work tree to what is
there. It does not follow symlinks on the way to a path.
-/

namespace Got

/-! ## The disk -/

/-- `struct timespec`. -/
structure Timespec where
  sec : ℕ
  nsec : ℕ
  deriving DecidableEq, Repr

/-- What a path names. A symlink has its target, which is a string of bytes. -/
inductive Node
  | file (content : Bytes)
  | symlink (target : Bytes)
  | dir
  /-- A pipe, which stands for all that is none of the above. -/
  | other
  deriving DecidableEq

/-- **A node on disk** with what `lstat` gives of it. -/
structure Inode where
  node : Node
  perms : UInt32
  ctim : Timespec
  mtim : Timespec
  perms_valid : perms &&& S_IFMT = 0
  deriving DecidableEq

/-- The permissions of a new file say nothing of its type. -/
theorem rwPerms_and_fmt : (0o644 : UInt32) &&& S_IFMT = 0 := by decide

theorem rwxPerms_and_fmt : (0o755 : UInt32) &&& S_IFMT = 0 := by decide

namespace Inode

/-- The file type in a mode. -/
def filetype (sb : Inode) : UInt32 :=
  match sb.node with
  | .file _ => S_IFREG
  | .symlink _ => S_IFLNK
  | .dir => S_IFDIR
  | .other => 0o010000

/-- `st_mode` -/
def mode (sb : Inode) : UInt32 := sb.filetype ||| sb.perms

/-- `st_size`, of which only the lower 32 bits are ever used. -/
def size (sb : Inode) : UInt32 :=
  match sb.node with
  | .file content => UInt32.ofNat content.length
  | .symlink target => UInt32.ofNat target.length
  | _ => 0

/-- The content of a file, or the target of a symlink: what a blob is made
of. -/
def data (sb : Inode) : Except GotErr Bytes :=
  match sb.node with
  | .file content => .ok content
  | .symlink target => .ok target
  | .dir => .error (.errno .isdir)
  | .other => .error .io

theorem mode_and_fmt (sb : Inode) : sb.mode &&& S_IFMT = sb.filetype &&& S_IFMT := by
  have h : (sb.filetype ||| sb.perms) &&& S_IFMT
      = (sb.filetype &&& S_IFMT) ||| (sb.perms &&& S_IFMT) :=
    UInt32.toBitVec_inj.mp BitVec.and_or_distrib_right
  rw [mode, h, sb.perms_valid]
  exact UInt32.or_zero

/-- A regular file is one with content. -/
theorem isReg_iff (sb : Inode) : S_ISREG sb.mode ↔ ∃ content, sb.node = .file content := by
  unfold S_ISREG
  rw [mode_and_fmt, filetype, decide_eq_true_iff]
  cases sb.node with
  | file content =>
    dsimp only
    exact ⟨fun _ => ⟨content, rfl⟩, fun _ => by decide⟩
  | _ =>
    dsimp only
    exact ⟨fun h => absurd h (by decide), fun ⟨_, h⟩ => (nomatch h)⟩

/-- A symlink is one with a target. -/
theorem isLnk_iff (sb : Inode) : S_ISLNK sb.mode ↔ ∃ target, sb.node = .symlink target := by
  unfold S_ISLNK
  rw [mode_and_fmt, filetype, decide_eq_true_iff]
  cases sb.node with
  | symlink target =>
    dsimp only
    exact ⟨fun _ => ⟨target, rfl⟩, fun _ => by decide⟩
  | _ =>
    dsimp only
    exact ⟨fun h => absurd h (by decide), fun ⟨_, h⟩ => (nomatch h)⟩

/-- A directory is known by its mode. -/
theorem isDir_iff (sb : Inode) : S_ISDIR sb.mode ↔ sb.node = .dir := by
  unfold S_ISDIR
  rw [mode_and_fmt, filetype, decide_eq_true_iff]
  cases sb.node with
  | dir =>
    dsimp only
    exact ⟨fun _ => rfl, fun _ => by decide⟩
  | _ =>
    dsimp only
    exact ⟨fun h => absurd h (by decide), fun h => (nomatch h)⟩

/-- A regular file or a symlink. -/
def isFile (sb : Inode) : Bool := S_ISREG sb.mode ∨ S_ISLNK sb.mode

theorem not_isReg_of_isLnk {sb : Inode} (h : S_ISLNK sb.mode) : ¬S_ISREG sb.mode := by
  obtain ⟨target, htarget⟩ := sb.isLnk_iff.mp h
  intro hreg
  obtain ⟨content, hcontent⟩ := sb.isReg_iff.mp hreg
  rw [htarget] at hcontent
  exact nomatch hcontent

theorem not_dir_of_isFile {sb : Inode} (h : sb.isFile) : sb.node ≠ .dir := by
  intro hdir
  rw [isFile, decide_eq_true_iff, isReg_iff, isLnk_iff, hdir] at h
  rcases h with ⟨_, h⟩ | ⟨_, h⟩
  · exact nomatch h
  · exact nomatch h

end Inode

/-- **The disk below the root of a work tree.** -/
abbrev Disk := List Name → Option Inode

/-! ## Entries of the file index -/

/-- The path of a file in the work tree. -/
abbrev RelPath := { names : List Name // names ≠ [] }

theorem relPath_ne_nil (path : RelPath) : path.val ≠ [] := path.property

/-- The type of a file, as the file index stores it in two bits. -/
inductive FileIdxMode
  | none
  | regularFile
  | symlink
  /-- A regular file whose content is the target of a symlink that points out
  of the work tree. -/
  | badSymlink
  deriving DecidableEq, Repr

/-- `GOT_FILEIDX_STAGE_*` -/
inductive Stage
  | none
  | modify
  | add
  | delete
  deriving DecidableEq, Repr

/-- The blob with the null id. -/
def nullBlobId : Object := .foreign ⟨List.replicate SHA1_DIGEST_LENGTH 0, length_zeros⟩

/-- **An entry of the file index.** The bits of its flags are fields of their
own. The ids are there, from an earlier update, even if the flags say that
there is no blob or no commit. -/
structure FileIndexEntry where
  path : RelPath
  ctim : Timespec := ⟨0, 0⟩
  mtim : Timespec := ⟨0, 0⟩
  size : UInt32 := 0
  filetype : FileIdxMode := .none
  stagedFiletype : FileIdxMode := .none
  perms : UInt32 := 0
  blobSha1 : Object := nullBlobId
  commitSha1 : CommitId := none
  stagedBlobSha1 : Object := nullBlobId
  stage : Stage := .none
  hasBlob : Bool := true
  hasCommit : Bool := true
  hasFileOnDisk : Bool := true
  deriving DecidableEq

namespace FileIndexEntry

/-- `got_fileindex_perms_to_st` -/
def permsToSt (ie : FileIndexEntry) : UInt32 :=
  (if ie.filetype = .regularFile ∨ ie.filetype = .badSymlink then S_IFREG else S_IFLNK)
    ||| (ie.perms &&& S_IRWX)

/-- **`got_fileindex_entry_update`**: record what is on disk, and the blob and
commit it is from. -/
def update (ie : FileIndexEntry) (ondisk : Option Inode) (blobSha1 : Option Object)
    (commitSha1 : Option CommitId) (updateTimestamps : Bool) : Except GotErr FileIndexEntry :=
  let setIds (ie : FileIndexEntry) : FileIndexEntry :=
    { ie with
      blobSha1 := blobSha1.getD ie.blobSha1
      hasBlob := blobSha1.isSome
      commitSha1 := commitSha1.getD ie.commitSha1
      hasCommit := commitSha1.isSome }
  match ondisk with
  | none => if ie.hasFileOnDisk then .error (.errno .noent) else .ok (setIds ie)
  | some sb =>
    if sb.mode &&& S_IFDIR ≠ 0 then .error (.errno .isdir)
    else
      .ok (setIds { ie with
        hasFileOnDisk := true
        ctim := if updateTimestamps then sb.ctim else ie.ctim
        mtim := if updateTimestamps then sb.mtim else ie.mtim
        size := sb.size
        filetype := if S_ISLNK sb.mode then .symlink else .regularFile
        perms := if S_ISLNK sb.mode then 0 else sb.mode &&& S_IRWX })

end FileIndexEntry

/-- `got_fileindex_entry_get`: paths are unique. -/
def gotFileindexEntryGet (fileindex : List FileIndexEntry) (path : RelPath) :
    Option FileIndexEntry :=
  fileindex.find? (fun ie => ie.path = path)

/-- `got_fileindex_entry_add` -/
def gotFileindexEntryAdd (fileindex : List FileIndexEntry) (ie : FileIndexEntry) :
    List FileIndexEntry :=
  (gotPathlistInsert (fun ie => relPath ie.path) fileindex ie).getD fileindex

/-- `got_fileindex_entry_remove`, and the flush that removes the entry for good. -/
def gotFileindexEntryRemove (fileindex : List FileIndexEntry) (ie : FileIndexEntry) :
    List FileIndexEntry :=
  fileindex.filter (fun ie' => ie'.path ≠ ie.path)

/-- An entry of the file index is changed in place. -/
def replaceEntry (fileindex : List FileIndexEntry) (ie : FileIndexEntry) : List FileIndexEntry :=
  fileindex.map (fun ie' => if ie'.path = ie.path then ie else ie')

section Index

variable {fileindex : List FileIndexEntry}

/-- An entry that was removed is not found. -/
theorem gotFileindexEntryGet_remove (fileindex : List FileIndexEntry) (ie : FileIndexEntry) :
    gotFileindexEntryGet (gotFileindexEntryRemove fileindex ie) ie.path = none := by
  unfold gotFileindexEntryGet gotFileindexEntryRemove
  rw [List.find?_eq_none]
  intro ie' hmem hpath
  rw [List.mem_filter, decide_eq_true_iff] at hmem
  exact hmem.2 (of_decide_eq_true hpath)

/-- An entry that was changed in place is found where it was. -/
theorem gotFileindexEntryGet_replace {ie ie' : FileIndexEntry} (hpath : ie'.path = ie.path)
    (hget : gotFileindexEntryGet fileindex ie.path = some ie) :
    gotFileindexEntryGet (replaceEntry fileindex ie') ie.path = some ie' := by
  unfold gotFileindexEntryGet replaceEntry at *
  rw [List.find?_map]
  have hpred : ((fun e : FileIndexEntry => decide (e.path = ie.path)) ∘
      fun e => if e.path = ie'.path then ie' else e) = fun e => decide (e.path = ie.path) := by
    funext e
    rw [Function.comp_apply, hpath]
    by_cases he : e.path = ie.path
    · rw [if_pos he, hpath, decide_eq_true he, decide_eq_true rfl]
    · rw [if_neg he]
  rw [hpred, hget, Option.map_some, if_pos hpath.symm]

/-- An entry with the path of one that was replaced is the new one. -/
theorem mem_replaceEntry {ie ie' : FileIndexEntry} (h : ie ∈ replaceEntry fileindex ie')
    (hpath : ie.path = ie'.path) : ie = ie' := by
  obtain ⟨e, -, rfl⟩ := List.mem_map.mp h
  by_cases he : e.path = ie'.path
  · exact if_pos he
  · rw [if_neg he] at hpath
    exact absurd hpath he

end Index

end Got

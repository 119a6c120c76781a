import Mathlib.Tactic.IntervalCases
import Got.FileIndex.Entry
import Got.Worktree.FileIndex

/-!
# The words of an entry

An entry of the file index is looked at in two ways. `FileindexEntry` is the record as it is in
memory and on disk: its flags and its mode are words, whose bits are fields, and its ids are
digests. `FileIndexEntry` is what the commands of a work tree see of it: each field is one of its
own, and in place of a digest there is the object.

`Represents` says that a record is the words of what a work tree sees. Whatever a work tree does
to an entry is done to the words by the function of the source with the same name, and the words
are those of what the work tree sees afterwards (`Represents.update` and the lemmas around it).
-/

namespace Got

/-! ## Fields of a word -/

/-- Setting a field of a word does not change the others. -/
theorem and_setField_of_disjoint (x v : UInt16) {m k : UInt16} (hm : m &&& k = 0)
    (hk : ~~~m &&& k = k) : (x &&& ~~~m ||| v &&& m) &&& k = x &&& k := by
  have hdist : (x &&& ~~~m ||| v &&& m) &&& k = (x &&& ~~~m) &&& k ||| (v &&& m) &&& k :=
    UInt16.toBitVec_inj.mp BitVec.and_or_distrib_right
  rw [hdist, UInt16.and_assoc, hk, UInt16.and_assoc, hm, UInt16.and_zero, UInt16.or_zero]

/-- A field that was set is what it was set to. -/
theorem and_setField_self (x v : UInt16) {m : UInt16} (hm : ~~~m &&& m = 0) :
    (x &&& ~~~m ||| v &&& m) &&& m = v &&& m := by
  have hdist : (x &&& ~~~m ||| v &&& m) &&& m = (x &&& ~~~m) &&& m ||| (v &&& m) &&& m :=
    UInt16.toBitVec_inj.mp BitVec.and_or_distrib_right
  rw [hdist, UInt16.and_assoc, hm, UInt16.and_zero, UInt16.zero_or, UInt16.and_assoc,
    UInt16.and_self]

/-- What the two bits of a file type hold. -/
def FileIdxMode.bits : FileIdxMode → UInt16
  | .none => 0
  | .regularFile => GOT_FILEIDX_MODE_REGULAR_FILE
  | .symlink => GOT_FILEIDX_MODE_SYMLINK
  | .badSymlink => GOT_FILEIDX_MODE_BAD_SYMLINK

/-- What the bits of a stage hold. -/
def Stage.bits : Stage → UInt32
  | .none => GOT_FILEIDX_STAGE_NONE
  | .modify => GOT_FILEIDX_STAGE_MODIFY
  | .add => GOT_FILEIDX_STAGE_ADD
  | .delete => GOT_FILEIDX_STAGE_DELETE

theorem FileIdxMode.bits_and (type : FileIdxMode) :
    type.bits &&& GOT_FILEIDX_MODE_FILE_TYPE_ONDISK = type.bits := by
  cases type <;> decide

theorem FileIdxMode.bits_shift (type : FileIdxMode) :
    (type.bits <<< GOT_FILEIDX_MODE_FILE_TYPE_STAGED_SHIFT
        &&& GOT_FILEIDX_MODE_FILE_TYPE_STAGED) >>> GOT_FILEIDX_MODE_FILE_TYPE_STAGED_SHIFT
      = type.bits := by
  cases type <;> decide

theorem Stage.bits_shift (stage : Stage) :
    (stage.bits <<< GOT_FILEIDX_F_STAGE_SHIFT &&& GOT_FILEIDX_F_STAGE) >>> GOT_FILEIDX_F_STAGE_SHIFT
      = stage.bits := by
  cases stage <;> decide

namespace FileindexEntry

variable {ie : FileindexEntry}

/-- `got_fileindex_entry_filetype_get` -/
def filetypeGet (ie : FileindexEntry) : UInt16 := ie.mode &&& GOT_FILEIDX_MODE_FILE_TYPE_ONDISK

/-- `got_fileindex_entry_staged_filetype_get` -/
def stagedFiletypeGet (ie : FileindexEntry) : UInt16 :=
  (ie.mode &&& GOT_FILEIDX_MODE_FILE_TYPE_STAGED) >>> GOT_FILEIDX_MODE_FILE_TYPE_STAGED_SHIFT

/-- `got_fileindex_entry_perms_get` -/
def permsGet (ie : FileindexEntry) : UInt16 :=
  (ie.mode &&& GOT_FILEIDX_MODE_PERMS) >>> GOT_FILEIDX_MODE_PERMS_SHIFT

/-- **The three fields of the mode.** -/
def modeFields (ie : FileindexEntry) : UInt16 × UInt16 × UInt16 :=
  (ie.filetypeGet, ie.stagedFiletypeGet, ie.permsGet)

/-- Nine bits are shifted to the place of the permissions and back. -/
theorem perms_shift (mode : UInt32) :
    ((mode &&& S_IRWX).toUInt16 <<< GOT_FILEIDX_MODE_PERMS_SHIFT &&& GOT_FILEIDX_MODE_PERMS)
        >>> GOT_FILEIDX_MODE_PERMS_SHIFT
      = (mode &&& S_IRWX).toUInt16 := by
  unfold S_IRWX GOT_FILEIDX_MODE_PERMS_SHIFT GOT_FILEIDX_MODE_PERMS
  rw [← UInt16.toBitVec_inj]
  ext i hi
  simp
  interval_cases i <;> simp

/-- Setting the type keeps the staged type and the permissions. -/
theorem modeFields_filetypeSet (type : FileIdxMode) :
    (ie.filetypeSet type.bits).modeFields = (type.bits, ie.stagedFiletypeGet, ie.permsGet) := by
  refine Prod.ext ?_ (Prod.ext ?_ ?_)
  · exact (and_setField_self _ _ (by decide)).trans type.bits_and
  · exact congrArg (· >>> _) (and_setField_of_disjoint _ _ (by decide) (by decide))
  · exact congrArg (· >>> _) (and_setField_of_disjoint _ _ (by decide) (by decide))

/-- Setting the staged type keeps the type and the permissions. -/
theorem modeFields_stagedFiletypeSet (type : FileIdxMode) :
    (ie.stagedFiletypeSet type.bits).modeFields = (ie.filetypeGet, type.bits, ie.permsGet) := by
  refine Prod.ext ?_ (Prod.ext ?_ ?_)
  · exact and_setField_of_disjoint _ _ (by decide) (by decide)
  · exact (congrArg (· >>> _) (and_setField_self _ _ (by decide))).trans type.bits_shift
  · exact congrArg (· >>> _) (and_setField_of_disjoint _ _ (by decide) (by decide))

/-- Permissions of nine bits are kept as they are. -/
theorem modeFields_permsSet (mode : UInt32) :
    (ie.permsSet (mode &&& S_IRWX)).modeFields =
      (ie.filetypeGet, ie.stagedFiletypeGet, (mode &&& S_IRWX).toUInt16) := by
  refine Prod.ext ?_ (Prod.ext ?_ ?_)
  · exact and_setField_of_disjoint _ _ (by decide) (by decide)
  · exact congrArg (· >>> _) (and_setField_of_disjoint _ _ (by decide) (by decide))
  · exact (congrArg (· >>> _) (and_setField_self _ _ (by decide))).trans (perms_shift mode)

/-- The type and the permissions of a file. A symlink has no permissions. -/
theorem modeFields_recordMode (sb : Stat) :
    (ie.recordMode sb).modeFields =
      ((if S_ISLNK sb.stMode then FileIdxMode.symlink else .regularFile).bits, ie.stagedFiletypeGet,
        (if S_ISLNK sb.stMode then 0 else sb.stMode &&& S_IRWX).toUInt16) := by
  unfold recordMode
  split
  · have hperms := (ie.filetypeSet FileIdxMode.symlink.bits).modeFields_permsSet 0
    have htype := ie.modeFields_filetypeSet .symlink
    exact hperms.trans (congrArg (fun t => (t.1, t.2.1, (0 : UInt16))) htype)
  · have hperms := (ie.filetypeSet FileIdxMode.regularFile.bits).modeFields_permsSet sb.stMode
    have htype := ie.modeFields_filetypeSet .regularFile
    exact hperms.trans (congrArg (fun t => (t.1, t.2.1, (sb.stMode &&& S_IRWX).toUInt16)) htype)

/-- **The four fields of the flags** that a work tree looks at. -/
def flagFields (ie : FileindexEntry) : UInt32 × Bool × Bool × Bool :=
  (ie.stageGet, ie.hasFlag GOT_FILEIDX_F_NO_BLOB, ie.hasFlag GOT_FILEIDX_F_NO_COMMIT,
    ie.hasFlag GOT_FILEIDX_F_NO_FILE_ON_DISK)

/-- Flags that were cleared are not set. -/
theorem hasFlag_clearFlags_self (ie : FileindexEntry) (f : UInt32) :
    (ie.clearFlags f).hasFlag f = false := by
  unfold hasFlag clearFlags
  rw [UInt32.and_assoc, show ~~~f &&& f = 0 by simp, UInt32.and_zero]
  rfl

theorem stageGet_setFlags {f : UInt32} (h : f &&& GOT_FILEIDX_F_STAGE = 0) :
    (ie.setFlags f).stageGet = ie.stageGet :=
  congrArg (· >>> _) (or_and_of_disjoint ie.flags h)

theorem stageGet_clearFlags {f : UInt32} (h : ~~~f &&& GOT_FILEIDX_F_STAGE = GOT_FILEIDX_F_STAGE) :
    (ie.clearFlags f).stageGet = ie.stageGet :=
  congrArg (· >>> _) (and_not_and_of_disjoint ie.flags h)

/-- Recording a blob changes the bit for it and no other. -/
theorem flagFields_recordBlob (id : Option Sha1) :
    (ie.recordBlob id).flagFields = (ie.stageGet, id.isNone,
      ie.hasFlag GOT_FILEIDX_F_NO_COMMIT, ie.hasFlag GOT_FILEIDX_F_NO_FILE_ON_DISK) := by
  cases id with
  | none =>
    refine Prod.ext (stageGet_setFlags (by decide)) (Prod.ext ?_ (Prod.ext ?_ ?_))
    · exact ie.hasFlag_setFlags_self ⟨by decide, by decide⟩
    · exact ie.hasFlag_setFlags (by decide)
    · exact ie.hasFlag_setFlags (by decide)
  | some id =>
    refine Prod.ext (stageGet_clearFlags (by decide)) (Prod.ext ?_ (Prod.ext ?_ ?_))
    · exact ie.hasFlag_clearFlags_self _
    · exact ie.hasFlag_clearFlags (by decide)
    · exact ie.hasFlag_clearFlags (by decide)

/-- Recording a commit changes the bit for it and no other. -/
theorem flagFields_recordCommit (id : Option Sha1) :
    (ie.recordCommit id).flagFields = (ie.stageGet, ie.hasFlag GOT_FILEIDX_F_NO_BLOB, id.isNone,
      ie.hasFlag GOT_FILEIDX_F_NO_FILE_ON_DISK) := by
  cases id with
  | none =>
    refine Prod.ext (stageGet_setFlags (by decide)) (Prod.ext ?_ (Prod.ext ?_ ?_))
    · exact ie.hasFlag_setFlags (by decide)
    · exact ie.hasFlag_setFlags_self ⟨by decide, by decide⟩
    · exact ie.hasFlag_setFlags (by decide)
  | some id =>
    refine Prod.ext (stageGet_clearFlags (by decide)) (Prod.ext ?_ (Prod.ext ?_ ?_))
    · exact ie.hasFlag_clearFlags (by decide)
    · exact ie.hasFlag_clearFlags_self _
    · exact ie.hasFlag_clearFlags (by decide)

/-- `got_fileindex_entry_mark_deleted_from_disk` -/
theorem flagFields_deletedFromDisk : (ie.applyMark .deletedFromDisk).flagFields =
    (ie.stageGet, ie.hasFlag GOT_FILEIDX_F_NO_BLOB, ie.hasFlag GOT_FILEIDX_F_NO_COMMIT, true) := by
  refine Prod.ext (stageGet_setFlags (by decide)) (Prod.ext ?_ (Prod.ext ?_ ?_))
  · exact ie.hasFlag_setFlags (by decide)
  · exact ie.hasFlag_setFlags (by decide)
  · exact ie.hasFlag_setFlags_self ⟨by decide, by decide⟩

/-- The file was found on disk. -/
theorem flagFields_foundOnDisk : (ie.clearFlags GOT_FILEIDX_F_NO_FILE_ON_DISK).flagFields =
    (ie.stageGet, ie.hasFlag GOT_FILEIDX_F_NO_BLOB, ie.hasFlag GOT_FILEIDX_F_NO_COMMIT, false) := by
  refine Prod.ext (stageGet_clearFlags (by decide)) (Prod.ext ?_ (Prod.ext ?_ ?_))
  · exact ie.hasFlag_clearFlags (by decide)
  · exact ie.hasFlag_clearFlags (by decide)
  · exact ie.hasFlag_clearFlags_self _

/-- All but the mode is recorded apart from it. -/
theorem recordMode_eq (ie : FileindexEntry) (sb : Stat) :
    ie.recordMode sb = { ie with mode := (ie.recordMode sb).mode } := by
  unfold recordMode
  split <;> rfl

/-- Recording what `stat` says sets the type and the permissions, and keeps the staged type. -/
theorem modeFields_recordStat (sb : Stat) (updateTimestamps : Bool) :
    (ie.recordStat sb updateTimestamps).modeFields =
      ((if S_ISLNK sb.stMode then FileIdxMode.symlink else .regularFile).bits, ie.stagedFiletypeGet,
        (if S_ISLNK sb.stMode then 0 else sb.stMode &&& S_IRWX).toUInt16) := by
  unfold recordStat
  cases updateTimestamps <;> exact modeFields_recordMode sb

/-- Recording what `stat` says takes the mark away that there is no file. -/
theorem flagFields_recordStat (sb : Stat) (updateTimestamps : Bool) :
    (ie.recordStat sb updateTimestamps).flagFields =
      (ie.stageGet, ie.hasFlag GOT_FILEIDX_F_NO_BLOB, ie.hasFlag GOT_FILEIDX_F_NO_COMMIT,
        false) := by
  unfold recordStat
  rw [recordMode_eq, ← flagFields_foundOnDisk]
  cases updateTimestamps <;> rfl

/-- Setting the stage keeps every flag outside of its bits. -/
theorem hasFlag_stageSet (ie : FileindexEntry) (stage : UInt32) {f : UInt32}
    (h : GOT_FILEIDX_F_STAGE &&& f = 0) (hf : ~~~GOT_FILEIDX_F_STAGE &&& f = f) :
    (ie.stageSet stage).hasFlag f = ie.hasFlag f := by
  unfold hasFlag stageSet
  rw [or_and_of_disjoint _ (by rw [UInt32.and_assoc, h, UInt32.and_zero]),
    and_not_and_of_disjoint _ hf]

/-- The stage that was set is the stage that is read. -/
theorem stageGet_stageSet (ie : FileindexEntry) (stage : Stage) :
    (ie.stageSet stage.bits).stageGet = stage.bits := by
  have hdist (x v : UInt32) : (x ||| v) &&& GOT_FILEIDX_F_STAGE =
      x &&& GOT_FILEIDX_F_STAGE ||| v &&& GOT_FILEIDX_F_STAGE :=
    UInt32.toBitVec_inj.mp BitVec.and_or_distrib_right
  refine Eq.trans (congrArg (· >>> GOT_FILEIDX_F_STAGE_SHIFT) ?_) stage.bits_shift
  show (_ ||| _) &&& GOT_FILEIDX_F_STAGE = _
  rw [hdist, UInt32.and_assoc, show ~~~GOT_FILEIDX_F_STAGE &&& GOT_FILEIDX_F_STAGE = 0 by decide,
    UInt32.and_zero, UInt32.zero_or, UInt32.and_assoc, UInt32.and_self]

/-- Setting the stage sets its bits and keeps the others. -/
theorem flagFields_stageSet (stage : Stage) : (ie.stageSet stage.bits).flagFields =
    (stage.bits, ie.hasFlag GOT_FILEIDX_F_NO_BLOB, ie.hasFlag GOT_FILEIDX_F_NO_COMMIT,
      ie.hasFlag GOT_FILEIDX_F_NO_FILE_ON_DISK) := by
  refine Prod.ext (ie.stageGet_stageSet stage) (Prod.ext ?_ (Prod.ext ?_ ?_))
  · exact ie.hasFlag_stageSet _ (by decide) (by decide)
  · exact ie.hasFlag_stageSet _ (by decide) (by decide)
  · exact ie.hasFlag_stageSet _ (by decide) (by decide)

end FileindexEntry

/-! ## What the words stand for -/

/-- **What `fstatat` says of a node on disk**, without following a symlink. The owner of a file is
only written down. -/
structure IsStat (sb : Inode) (st : Stat) : Prop where
  mode : st.stMode = sb.mode
  size : st.stSize.toUInt32 = sb.size
  ctim : ⟨st.ctimSec.toNat, st.ctimNsec.toNat⟩ = sb.ctim
  mtim : ⟨st.mtimSec.toNat, st.mtimNsec.toNat⟩ = sb.mtim

/-- What `fstatat` returns for a path. -/
inductive Fstatat : Option Inode → Except Errno Stat → Prop
  | noent : Fstatat none (.error .noent)
  | found {sb : Inode} {st : Stat} (h : IsStat sb st) : Fstatat (some sb) (.ok st)

/-- **A record is the words of an entry.** The digests of objects and of commits are given by two
functions, about which nothing need be known. -/
structure Represents (objectSha1 : Object → Sha1) (commitSha1 : CommitId → Sha1)
    (ie : FileindexEntry) (e : FileIndexEntry) : Prop where
  path : ie.path = relPath e.path
  ctim : ⟨ie.ctimeSec.toNat, ie.ctimeNsec.toNat⟩ = e.ctim
  mtim : ⟨ie.mtimeSec.toNat, ie.mtimeNsec.toNat⟩ = e.mtim
  size : ie.size = e.size
  mode : ie.modeFields = (e.filetype.bits, e.stagedFiletype.bits, e.perms.toUInt16)
  flags : ie.flagFields = (e.stage.bits, !e.hasBlob, !e.hasCommit, !e.hasFileOnDisk)
  blob : ie.blobSha1 = objectSha1 e.blobSha1
  commit : ie.commitSha1 = commitSha1 e.commitSha1
  stagedBlob : ie.stagedBlobSha1 = objectSha1 e.stagedBlobSha1

namespace Represents

variable {objectSha1 : Object → Sha1} {commitSha1 : CommitId → Sha1} {ie : FileindexEntry}
  {e : FileIndexEntry}

/-! ### A new entry -/

/-- `got_fileindex_entry_alloc`. The ids in its memory are those of no object. -/
theorem alloc (hobject : objectSha1 nullBlobId = zeroSha1) (hcommit : commitSha1 none = zeroSha1)
    (path : RelPath) :
    Represents objectSha1 commitSha1 (.alloc (relPath path)) { path } where
  path := rfl
  ctim := rfl
  mtim := rfl
  size := rfl
  mode := by
    have hzero : ((0 : UInt16) &&& GOT_FILEIDX_MODE_FILE_TYPE_ONDISK,
      ((0 : UInt16) &&& GOT_FILEIDX_MODE_FILE_TYPE_STAGED)
        >>> GOT_FILEIDX_MODE_FILE_TYPE_STAGED_SHIFT,
      ((0 : UInt16) &&& GOT_FILEIDX_MODE_PERMS) >>> GOT_FILEIDX_MODE_PERMS_SHIFT)
        = (FileIdxMode.bits .none, FileIdxMode.bits .none, (0 : UInt32).toUInt16) := by decide
    exact hzero
  flags := by
    refine Prod.ext ?_ (Prod.ext ?_ (Prod.ext ?_ ?_))
    · exact congrArg (· >>> _) (FileindexEntry.alloc_flags_and _ (by decide))
    · exact FileindexEntry.hasFlag_alloc _ (by decide)
    · exact FileindexEntry.hasFlag_alloc _ (by decide)
    · exact FileindexEntry.hasFlag_alloc _ (by decide)
  blob := hobject.symm
  commit := hcommit.symm
  stagedBlob := hobject.symm

/-! ### Marks -/

section

variable (h : Represents objectSha1 commitSha1 ie e)

include h

/-- `got_fileindex_entry_stage_set` -/
theorem stageSet (stage : Stage) :
    Represents objectSha1 commitSha1 (ie.stageSet stage.bits) { e with stage } :=
  { h with
    flags := (ie.flagFields_stageSet stage).trans
      (congrArg (fun t => (stage.bits, t.2)) h.flags) }

/-- `got_fileindex_entry_filetype_set` -/
theorem filetypeSet (filetype : FileIdxMode) :
    Represents objectSha1 commitSha1 (ie.filetypeSet filetype.bits) { e with filetype } :=
  { h with
    mode := (ie.modeFields_filetypeSet filetype).trans
      (congrArg (fun t => (filetype.bits, t.2)) h.mode) }

/-- `got_fileindex_entry_staged_filetype_set` -/
theorem stagedFiletypeSet (stagedFiletype : FileIdxMode) :
    Represents objectSha1 commitSha1 (ie.stagedFiletypeSet stagedFiletype.bits)
      { e with stagedFiletype } :=
  { h with
    mode := (ie.modeFields_stagedFiletypeSet stagedFiletype).trans
      (congrArg (fun t => (t.1, stagedFiletype.bits, t.2.2)) h.mode) }

/-- The staged blob is copied into the entry. -/
theorem stagedBlobSet (blob : Object) :
    Represents objectSha1 commitSha1 { ie with stagedBlobSha1 := objectSha1 blob }
      { e with stagedBlobSha1 := blob } :=
  { h with stagedBlob := rfl }

/-- `got_fileindex_entry_mark_deleted_from_disk` -/
theorem deletedFromDisk :
    Represents objectSha1 commitSha1 (ie.applyMark .deletedFromDisk)
      { e with hasFileOnDisk := false } :=
  { h with
    flags := ie.flagFields_deletedFromDisk.trans
      (congrArg (fun t => (t.1, t.2.1, t.2.2.1, true)) h.flags) }

/-! ### Updates -/

/-- Recording a blob is recording it in the fields. -/
theorem recordBlob (blob : Option Object) :
    Represents objectSha1 commitSha1 (ie.recordBlob (blob.map objectSha1))
      { e with blobSha1 := blob.getD e.blobSha1, hasBlob := blob.isSome } := by
  have hflags := congrArg (fun t => (t.1, (blob.map objectSha1).isNone, t.2.2)) h.flags
  have hset := (ie.flagFields_recordBlob (blob.map objectSha1)).trans hflags
  cases blob with
  | none => exact { h with flags := hset }
  | some blob => exact { h with flags := hset, blob := rfl }

/-- Recording a commit is recording it in the fields. -/
theorem recordCommit (commit : Option CommitId) :
    Represents objectSha1 commitSha1 (ie.recordCommit (commit.map commitSha1))
      { e with commitSha1 := commit.getD e.commitSha1, hasCommit := commit.isSome } := by
  have hflags := congrArg (fun t => (t.1, t.2.1, (commit.map commitSha1).isNone, t.2.2.2)) h.flags
  have hset := (ie.flagFields_recordCommit (commit.map commitSha1)).trans hflags
  cases commit with
  | none => exact { h with flags := hset }
  | some commit => exact { h with flags := hset, commit := rfl }

/-- What is on disk. -/
theorem recordStat {sb : Inode} {st : Stat} (hstat : IsStat sb st) (updateTimestamps : Bool) :
    Represents objectSha1 commitSha1 (ie.recordStat st updateTimestamps)
      { e with
        hasFileOnDisk := true
        ctim := if updateTimestamps then sb.ctim else e.ctim
        mtim := if updateTimestamps then sb.mtim else e.mtim
        size := sb.size
        filetype := if S_ISLNK sb.mode then .symlink else .regularFile
        perms := if S_ISLNK sb.mode then 0 else sb.mode &&& S_IRWX } := by
  have hmode := (ie.modeFields_recordStat st updateTimestamps).trans (congrArg (fun t =>
    ((if S_ISLNK st.stMode then FileIdxMode.symlink else .regularFile).bits, t.2.1,
      (if S_ISLNK st.stMode then 0 else st.stMode &&& S_IRWX).toUInt16)) h.mode)
  have hflags := (ie.flagFields_recordStat st updateTimestamps).trans
    (congrArg (fun t => (t.1, t.2.1, t.2.2.1, false)) h.flags)
  rw [hstat.mode] at hmode
  unfold FileindexEntry.recordStat at hmode hflags ⊢
  rw [FileindexEntry.recordMode_eq] at hmode hflags ⊢
  cases updateTimestamps with
  | false => exact { h with size := hstat.size, mode := hmode, flags := hflags }
  | true =>
    exact { h with
      ctim := hstat.ctim
      mtim := hstat.mtim
      size := hstat.size
      mode := hmode
      flags := hflags }

end

/-- **`got_fileindex_entry_update`** does to the words what it does to the entry, and fails where
it fails. -/
theorem update (h : Represents objectSha1 commitSha1 ie e) {ondisk : Option Inode}
    {stat : Except Errno Stat} (hstat : Fstatat ondisk stat) (blob : Option Object)
    (commit : Option CommitId) (updateTimestamps : Bool) :
    (∃ err, e.update ondisk blob commit updateTimestamps = .error err
        ∧ ie.update stat (blob.map objectSha1) (commit.map commitSha1) updateTimestamps
          = .error err)
      ∨ ∃ e' ie', e.update ondisk blob commit updateTimestamps = .ok e'
        ∧ ie.update stat (blob.map objectSha1) (commit.map commitSha1) updateTimestamps = .ok ie'
        ∧ Represents objectSha1 commitSha1 ie' e' := by
  have hdisk : ie.hasFlag GOT_FILEIDX_F_NO_FILE_ON_DISK = !e.hasFileOnDisk :=
    congrArg (fun t => t.2.2.2) h.flags
  cases hstat with
  | noent =>
    unfold FileIndexEntry.update FileindexEntry.update
    dsimp only
    by_cases hfile : e.hasFileOnDisk
    · rw [if_pos hfile, if_pos (by simp [hdisk, hfile])]
      exact Or.inl ⟨_, rfl, rfl⟩
    · rw [if_neg hfile, if_neg (by simp [hdisk, hfile])]
      exact Or.inr ⟨_, _, rfl, rfl, (h.recordBlob blob).recordCommit commit⟩
  | found hstat =>
    unfold FileIndexEntry.update FileindexEntry.update
    dsimp only
    rw [hstat.mode]
    split
    · exact Or.inl ⟨_, rfl, rfl⟩
    · exact Or.inr ⟨_, _, rfl, rfl,
        ((h.recordStat hstat updateTimestamps).recordBlob blob).recordCommit commit⟩

end Represents

end Got

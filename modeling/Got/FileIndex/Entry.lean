import Got.Object
import Got.PathLen

/-!
# Entries of the file index

The file index has an entry for each versioned file of a work tree. An entry
has what `stat` said about the file when the entry was last updated, the blob
and the commit that the file is from, and a word of flags, of which the lowest
bits are the length of the path.

What is done to an entry that is in the index is a `Mark`, and no mark changes
what the index itself looks at: the path, its length, and whether the entry is
to be removed (`kept_applyMark`).
-/

namespace Got

/-! ## Bits -/

/-- Setting bits does not change others. -/
theorem or_and_of_disjoint (f : UInt32) {m k : UInt32} (h : m &&& k = 0) :
    (f ||| m) &&& k = f &&& k := by
  have hdist : (f ||| m) &&& k = (f &&& k) ||| (m &&& k) :=
    UInt32.toBitVec_inj.mp BitVec.and_or_distrib_right
  rw [hdist, h, UInt32.or_zero]

/-- Bits that were set are set. -/
theorem or_and_self (f m : UInt32) : (f ||| m) &&& m = m := by
  rw [← UInt32.toBitVec_inj]
  ext i
  simp
  grind

/-- Clearing bits does not change others. -/
theorem and_not_and_of_disjoint (f : UInt32) {m k : UInt32} (h : ~~~m &&& k = k) :
    (f &&& ~~~m) &&& k = f &&& k := by
  rw [UInt32.and_assoc, h]

/-! ## Entries -/

def GOT_FILEIDX_F_PATH_LEN : UInt32 := 0x00000fff
def GOT_FILEIDX_F_STAGE : UInt32 := 0x0000f000
def GOT_FILEIDX_F_STAGE_SHIFT : UInt32 := 12
def GOT_FILEIDX_F_NOT_FLUSHED : UInt32 := 0x00010000
def GOT_FILEIDX_F_NO_BLOB : UInt32 := 0x00020000
def GOT_FILEIDX_F_NO_COMMIT : UInt32 := 0x00040000
def GOT_FILEIDX_F_NO_FILE_ON_DISK : UInt32 := 0x00080000
def GOT_FILEIDX_F_REMOVE_ON_FLUSH : UInt32 := 0x00100000

def GOT_FILEIDX_MODE_FILE_TYPE_ONDISK : UInt16 := 0x0003
def GOT_FILEIDX_MODE_FILE_TYPE_STAGED : UInt16 := 0x000c
def GOT_FILEIDX_MODE_FILE_TYPE_STAGED_SHIFT : UInt16 := 2
def GOT_FILEIDX_MODE_REGULAR_FILE : UInt16 := 1
def GOT_FILEIDX_MODE_SYMLINK : UInt16 := 2
def GOT_FILEIDX_MODE_BAD_SYMLINK : UInt16 := 3
def GOT_FILEIDX_MODE_PERMS : UInt16 := 0xfff0
def GOT_FILEIDX_MODE_PERMS_SHIFT : UInt16 := 4

def GOT_FILEIDX_STAGE_NONE : UInt32 := 0
def GOT_FILEIDX_STAGE_MODIFY : UInt32 := 1
def GOT_FILEIDX_STAGE_ADD : UInt32 := 2
def GOT_FILEIDX_STAGE_DELETE : UInt32 := 3

/-- The length of a path, as far as there are bits for it. -/
def MAX_PATH_LEN : ℕ := 0xfff

/-- The id that memory from `calloc` holds. -/
def zeroSha1 : Sha1 := ⟨List.replicate SHA1_DIGEST_LENGTH 0, length_zeros⟩

/-- **An entry of the file index**, `struct got_fileindex_entry`. -/
structure FileindexEntry where
  ctimeSec : UInt64 := 0
  ctimeNsec : UInt64 := 0
  mtimeSec : UInt64 := 0
  mtimeNsec : UInt64 := 0
  uid : UInt32 := 0
  gid : UInt32 := 0
  /-- Truncated to the lower 32 bits. -/
  size : UInt32 := 0
  mode : UInt16 := 0
  blobSha1 : Sha1 := zeroSha1
  commitSha1 : Sha1 := zeroSha1
  flags : UInt32 := 0
  path : Str
  stagedBlobSha1 : Sha1 := zeroSha1
  deriving DecidableEq

/-- **The path of a file in a work tree**, relative to its root. Its characters
are bytes, none of which is zero. -/
abbrev FilePath :=
  { names : List Name // names ≠ [] ∧ ∀ c ∈ relPath names, 0 < c.toNat ∧ c.toNat < 256 }

namespace FileindexEntry

/-- `got_fileindex_entry_alloc` -/
def alloc (relpath : Str) : FileindexEntry :=
  { path := relpath, flags := (min relpath.length MAX_PATH_LEN).toUInt32 }

/-- `got_fileindex_entry_path_len` -/
def pathLen (ie : FileindexEntry) : ℕ := (ie.flags &&& GOT_FILEIDX_F_PATH_LEN).toNat

/-- `got_fileindex_entry_stage_get` -/
def stageGet (ie : FileindexEntry) : UInt32 :=
  (ie.flags &&& GOT_FILEIDX_F_STAGE) >>> GOT_FILEIDX_F_STAGE_SHIFT

/-- `got_fileindex_entry_stage_set` -/
def stageSet (ie : FileindexEntry) (stage : UInt32) : FileindexEntry :=
  { ie with
    flags := (ie.flags &&& ~~~GOT_FILEIDX_F_STAGE)
      ||| ((stage <<< GOT_FILEIDX_F_STAGE_SHIFT) &&& GOT_FILEIDX_F_STAGE) }

/-- `got_fileindex_entry_filetype_set` -/
def filetypeSet (ie : FileindexEntry) (type : UInt16) : FileindexEntry :=
  { ie with
    mode := (ie.mode &&& ~~~GOT_FILEIDX_MODE_FILE_TYPE_ONDISK)
      ||| (type &&& GOT_FILEIDX_MODE_FILE_TYPE_ONDISK) }

/-- `got_fileindex_entry_staged_filetype_set` -/
def stagedFiletypeSet (ie : FileindexEntry) (type : UInt16) : FileindexEntry :=
  { ie with
    mode := (ie.mode &&& ~~~GOT_FILEIDX_MODE_FILE_TYPE_STAGED)
      ||| ((type <<< GOT_FILEIDX_MODE_FILE_TYPE_STAGED_SHIFT)
        &&& GOT_FILEIDX_MODE_FILE_TYPE_STAGED) }

/-- `fileindex_entry_perms_set` -/
def permsSet (ie : FileindexEntry) (mode : UInt32) : FileindexEntry :=
  { ie with
    mode := (ie.mode &&& ~~~GOT_FILEIDX_MODE_PERMS)
      ||| ((mode.toUInt16 <<< GOT_FILEIDX_MODE_PERMS_SHIFT) &&& GOT_FILEIDX_MODE_PERMS) }

/-- Set some flags. -/
def setFlags (ie : FileindexEntry) (f : UInt32) : FileindexEntry :=
  { ie with flags := ie.flags ||| f }

/-- Clear some flags. -/
def clearFlags (ie : FileindexEntry) (f : UInt32) : FileindexEntry :=
  { ie with flags := ie.flags &&& ~~~f }

/-- Whether a flag is set. -/
def hasFlag (ie : FileindexEntry) (f : UInt32) : Bool := ie.flags &&& f ≠ 0

/-- Whether the entry is to be removed when the index is flushed. -/
def removed (ie : FileindexEntry) : Bool := ie.hasFlag GOT_FILEIDX_F_REMOVE_ON_FLUSH

end FileindexEntry

/-! ## Updating an entry -/

/-- `struct stat` -/
structure Stat where
  stMode : UInt32
  stUid : UInt32
  stGid : UInt32
  stSize : UInt64
  ctimSec : UInt64
  ctimNsec : UInt64
  mtimSec : UInt64
  mtimNsec : UInt64
  deriving DecidableEq

namespace FileindexEntry

/-- Record the times of a file. -/
def recordTimestamps (ie : FileindexEntry) (sb : Stat) : FileindexEntry :=
  { ie with
    ctimeSec := sb.ctimSec
    ctimeNsec := sb.ctimNsec
    mtimeSec := sb.mtimSec
    mtimeNsec := sb.mtimNsec }

/-- Record the type and the permissions of a file. -/
def recordMode (ie : FileindexEntry) (sb : Stat) : FileindexEntry :=
  if S_ISLNK sb.stMode then (ie.filetypeSet GOT_FILEIDX_MODE_SYMLINK).permsSet 0
  else (ie.filetypeSet GOT_FILEIDX_MODE_REGULAR_FILE).permsSet (sb.stMode &&& S_IRWX)

/-- Record what is on disk. -/
def recordStat (ie : FileindexEntry) (sb : Stat) (updateTimestamps : Bool) : FileindexEntry :=
  let ie := ie.clearFlags GOT_FILEIDX_F_NO_FILE_ON_DISK
  let ie := if updateTimestamps then ie.recordTimestamps sb else ie
  { ie with uid := sb.stUid, gid := sb.stGid, size := sb.stSize.toUInt32 }.recordMode sb

/-- Record the blob that the file is from. -/
def recordBlob (ie : FileindexEntry) : Option Sha1 → FileindexEntry
  | some id => { ie.clearFlags GOT_FILEIDX_F_NO_BLOB with blobSha1 := id }
  | none => ie.setFlags GOT_FILEIDX_F_NO_BLOB

/-- Record the commit that the file is from. -/
def recordCommit (ie : FileindexEntry) : Option Sha1 → FileindexEntry
  | some id => { ie.clearFlags GOT_FILEIDX_F_NO_COMMIT with commitSha1 := id }
  | none => ie.setFlags GOT_FILEIDX_F_NO_COMMIT

/-- **`got_fileindex_entry_update`**, given what `fstatat` says. -/
def update (ie : FileindexEntry) (stat : Except Errno Stat) (blobSha1 commitSha1 : Option Sha1)
    (updateTimestamps : Bool) : Except GotErr FileindexEntry :=
  match stat with
  | .error e =>
    if ¬(ie.hasFlag GOT_FILEIDX_F_NO_FILE_ON_DISK ∧ e = .noent) then .error (.errno e)
    else .ok ((ie.recordBlob blobSha1).recordCommit commitSha1)
  | .ok sb =>
    if sb.stMode &&& S_IFDIR ≠ 0 then .error (.errno .isdir)
    else .ok (((ie.recordStat sb updateTimestamps).recordBlob blobSha1).recordCommit commitSha1)

end FileindexEntry

/-- **What is done to an entry** while it stays where it is. -/
inductive Mark
  /-- `got_fileindex_entry_mark_deleted_from_disk` -/
  | deletedFromDisk
  | stage (stage : UInt32)
  | filetype (type : UInt16)
  | stagedFiletype (type : UInt16)
  /-- The staged blob is copied into the entry. -/
  | stagedBlob (id : Sha1)
  /-- The base commit is copied into the entry. -/
  | baseCommit (id : Sha1)
  | update (stat : Except Errno Stat) (blobSha1 commitSha1 : Option Sha1) (updateTimestamps : Bool)

/-- Mark an entry. An update that fails leaves it as it was. -/
def FileindexEntry.applyMark (ie : FileindexEntry) : Mark → FileindexEntry
  | .deletedFromDisk => ie.setFlags GOT_FILEIDX_F_NO_FILE_ON_DISK
  | .stage stage => ie.stageSet stage
  | .filetype type => ie.filetypeSet type
  | .stagedFiletype type => ie.stagedFiletypeSet type
  | .stagedBlob id => { ie with stagedBlobSha1 := id }
  | .baseCommit id => { ie with commitSha1 := id }
  | .update stat blobSha1 commitSha1 updateTimestamps =>
    match ie.update stat blobSha1 commitSha1 updateTimestamps with
    | .error _ => ie
    | .ok ie' => ie'

/-! ## What is kept -/

/-- The flags that marks change. -/
def GOT_FILEIDX_F_MARKS : UInt32 :=
  GOT_FILEIDX_F_STAGE ||| GOT_FILEIDX_F_NO_BLOB ||| GOT_FILEIDX_F_NO_COMMIT
    ||| GOT_FILEIDX_F_NO_FILE_ON_DISK

/-- The other bits: the length of the path, and whether the entry is flushed or
is to be removed. -/
def GOT_FILEIDX_F_KEPT : UInt32 := ~~~GOT_FILEIDX_F_MARKS

namespace FileindexEntry

/-- **What the index relies on** in an entry. -/
def kept (ie : FileindexEntry) : Str × UInt32 := (ie.path, ie.flags &&& GOT_FILEIDX_F_KEPT)

variable (ie : FileindexEntry)

@[simp] theorem kept_setFlags {f : UInt32} (h : f &&& GOT_FILEIDX_F_KEPT = 0) :
    (ie.setFlags f).kept = ie.kept :=
  Prod.ext rfl (or_and_of_disjoint ie.flags h)

@[simp] theorem kept_clearFlags {f : UInt32}
    (h : ~~~f &&& GOT_FILEIDX_F_KEPT = GOT_FILEIDX_F_KEPT) :
    (ie.clearFlags f).kept = ie.kept :=
  Prod.ext rfl (and_not_and_of_disjoint ie.flags h)

/-- Setting the stage keeps what the index relies on, which is not in those bits. -/
theorem kept_stageSet (stage : UInt32) : (ie.stageSet stage).kept = ie.kept := by
  have hset : ((stage <<< GOT_FILEIDX_F_STAGE_SHIFT) &&& GOT_FILEIDX_F_STAGE) &&& GOT_FILEIDX_F_KEPT
      = 0 := by
    rw [UInt32.and_assoc, show GOT_FILEIDX_F_STAGE &&& GOT_FILEIDX_F_KEPT = 0 by decide,
      UInt32.and_zero]
  refine Prod.ext rfl ?_
  show (_ ||| _) &&& GOT_FILEIDX_F_KEPT = _
  rw [or_and_of_disjoint _ hset]
  exact and_not_and_of_disjoint ie.flags (by decide)

theorem kept_recordMode (sb : Stat) : (ie.recordMode sb).kept = ie.kept := by
  unfold recordMode
  split <;> rfl

/-- Recording what `stat` says keeps what the index relies on. -/
theorem kept_recordStat (sb : Stat) (updateTimestamps : Bool) :
    (ie.recordStat sb updateTimestamps).kept = ie.kept := by
  have hclear : (ie.clearFlags GOT_FILEIDX_F_NO_FILE_ON_DISK).kept = ie.kept :=
    kept_clearFlags ie (by decide)
  rw [← hclear, recordStat, kept_recordMode]
  cases updateTimestamps <;> rfl

theorem kept_recordBlob (id : Option Sha1) : (ie.recordBlob id).kept = ie.kept := by
  cases id with
  | none => exact kept_setFlags ie (by decide)
  | some id => exact kept_clearFlags ie (f := GOT_FILEIDX_F_NO_BLOB) (by decide)

theorem kept_recordCommit (id : Option Sha1) : (ie.recordCommit id).kept = ie.kept := by
  cases id with
  | none => exact kept_setFlags ie (by decide)
  | some id => exact kept_clearFlags ie (f := GOT_FILEIDX_F_NO_COMMIT) (by decide)

/-- An update keeps what the index relies on, whatever it records. -/
theorem kept_update {ie ie' : FileindexEntry} {stat : Except Errno Stat}
    {blobSha1 commitSha1 : Option Sha1} {updateTimestamps : Bool}
    (h : ie.update stat blobSha1 commitSha1 updateTimestamps = .ok ie') : ie'.kept = ie.kept := by
  cases stat with
  | error e =>
    rw [update] at h
    split at h
    · exact nomatch h
    · rw [← Except.ok.inj h, kept_recordCommit, kept_recordBlob]
  | ok sb =>
    rw [update] at h
    split at h
    · exact nomatch h
    · rw [← Except.ok.inj h, kept_recordCommit, kept_recordBlob, kept_recordStat]

/-- **A mark keeps what the index relies on.** -/
theorem kept_applyMark (m : Mark) : (ie.applyMark m).kept = ie.kept := by
  cases m with
  | deletedFromDisk => exact kept_setFlags ie (by decide)
  | stage stage => exact kept_stageSet ie stage
  | update stat blobSha1 commitSha1 updateTimestamps =>
    rw [applyMark]
    split
    · rfl
    · next h => exact kept_update h
  | _ => rfl

variable {ie} {ie' : FileindexEntry}

theorem path_eq_of_kept (h : ie'.kept = ie.kept) : ie'.path = ie.path := congrArg Prod.fst h

theorem flags_eq_of_kept (h : ie'.kept = ie.kept) {f : UInt32}
    (hf : GOT_FILEIDX_F_KEPT &&& f = f) : ie'.flags &&& f = ie.flags &&& f := by
  have h : ie'.flags &&& GOT_FILEIDX_F_KEPT = ie.flags &&& GOT_FILEIDX_F_KEPT := congrArg Prod.snd h
  rw [← hf, ← UInt32.and_assoc, h, UInt32.and_assoc]

theorem pathLen_eq_of_kept (h : ie'.kept = ie.kept) : ie'.pathLen = ie.pathLen :=
  congrArg UInt32.toNat (flags_eq_of_kept h (by decide))

theorem hasFlag_eq_of_kept (h : ie'.kept = ie.kept) {f : UInt32}
    (hf : GOT_FILEIDX_F_KEPT &&& f = f) :
    ie'.hasFlag f = ie.hasFlag f := by
  unfold hasFlag
  rw [flags_eq_of_kept h hf]

theorem removed_eq_of_kept (h : ie'.kept = ie.kept) : ie'.removed = ie.removed :=
  hasFlag_eq_of_kept h (by decide)

/-- Setting flags does not change others. -/
theorem hasFlag_setFlags (ie : FileindexEntry) {m f : UInt32} (h : m &&& f = 0) :
    (ie.setFlags m).hasFlag f = ie.hasFlag f := by
  unfold hasFlag setFlags
  rw [or_and_of_disjoint _ h]

/-- Flags that were set are set. -/
theorem hasFlag_setFlags_self (ie : FileindexEntry) {m f : UInt32} (h : f &&& m = m ∧ m ≠ 0) :
    (ie.setFlags m).hasFlag f = true := by
  refine decide_eq_true fun h0 => h.2 ?_
  have hself := or_and_self ie.flags m
  rw [← h.1, ← UInt32.and_assoc] at hself
  have h0 : (ie.flags ||| m) &&& f = 0 := h0
  rw [h.1, h0, UInt32.zero_and] at hself
  exact hself.symm

theorem hasFlag_clearFlags (ie : FileindexEntry) {m f : UInt32} (h : ~~~m &&& f = f) :
    (ie.clearFlags m).hasFlag f = ie.hasFlag f := by
  unfold hasFlag clearFlags
  rw [and_not_and_of_disjoint _ h]

/-! ## A new entry -/

/-- The length an entry is allocated with is the path's, up to `MAX_PATH_LEN`. -/
theorem pathLen_alloc (relpath : Str) :
    (alloc relpath).pathLen = min relpath.length MAX_PATH_LEN := by
  have hlt : min relpath.length MAX_PATH_LEN < 2 ^ 12 :=
    lt_of_le_of_lt (Nat.min_le_right _ _) (by decide)
  have hand : (min relpath.length MAX_PATH_LEN).toUInt32.toNat = min relpath.length MAX_PATH_LEN :=
    Nat.mod_eq_of_lt (by omega)
  show (_ &&& GOT_FILEIDX_F_PATH_LEN : UInt32).toNat = _
  rw [UInt32.toNat_and, alloc, hand, show GOT_FILEIDX_F_PATH_LEN.toNat = 2 ^ 12 - 1 from rfl,
    Nat.and_two_pow_sub_one_eq_mod, Nat.mod_eq_of_lt hlt]

/-- A new entry has no flags but the length of its path. -/
theorem alloc_flags_and (relpath : Str) {f : UInt32} (h : GOT_FILEIDX_F_PATH_LEN &&& f = 0) :
    (alloc relpath).flags &&& f = 0 := by
  have hlen : (alloc relpath).flags &&& GOT_FILEIDX_F_PATH_LEN = (alloc relpath).flags := by
    refine UInt32.toNat_inj.mp ((pathLen_alloc relpath).trans ?_)
    exact (Nat.mod_eq_of_lt
      (lt_of_le_of_lt (Nat.min_le_right _ _) (show MAX_PATH_LEN < 2 ^ 32 by decide))).symm
  rw [← hlen, UInt32.and_assoc, h, UInt32.and_zero]

theorem hasFlag_alloc (relpath : Str) {f : UInt32} (h : GOT_FILEIDX_F_PATH_LEN &&& f = 0) :
    (alloc relpath).hasFlag f = false := by
  unfold hasFlag
  rw [alloc_flags_and relpath h]
  rfl

/-- A new entry is not to be removed. -/
theorem removed_alloc (relpath : Str) : (alloc relpath).removed = false :=
  hasFlag_alloc relpath (by decide)

/-! ## The order of entries -/

/-- **What every entry is**: its path is made of names, and its length is the
one in the flags, as far as that goes. -/
structure IsEntry (ie : FileindexEntry) : Prop where
  names : ∃ names, ie.path = relPath names
  bytes : ∀ c ∈ ie.path, 0 < c.toNat ∧ c.toNat < 256
  pathLen_eq : ie.pathLen = min ie.path.length MAX_PATH_LEN

theorem isEntry_alloc (relpath : FilePath) : IsEntry (alloc (relPath relpath.1)) where
  names := ⟨relpath.1, rfl⟩
  bytes := relpath.2.2
  pathLen_eq := pathLen_alloc _

theorem IsEntry.congr (h : IsEntry ie) (hpath : ie'.path = ie.path)
    (hlen : ie'.pathLen = ie.pathLen) :
    IsEntry ie' where
  names := hpath ▸ h.names
  bytes := hpath ▸ h.bytes
  pathLen_eq := by rw [hpath, hlen, h.pathLen_eq]

/-- What entries are ordered by. -/
def key (ie : FileindexEntry) : List ℕ := pathKey MAX_PATH_LEN ie.path

end FileindexEntry

/-- `got_fileindex_cmp` -/
def gotFileindexCmp (e1 e2 : FileindexEntry) : Ordering :=
  gotPathCmpLen e1.path e2.path e1.pathLen e2.pathLen

/-- **Entries are ordered by key.** `got_fileindex_cmp` compares them as the path order does. -/
theorem gotFileindexCmp_eq {e1 e2 : FileindexEntry} (h1 : e1.IsEntry) (h2 : e2.IsEntry) :
    gotFileindexCmp e1 e2 = linCmp e1.key e2.key := by
  obtain ⟨names1, hp1⟩ := h1.names
  obtain ⟨names2, hp2⟩ := h2.names
  have hc1 : Canonical e1.path := hp1 ▸ canonical_relPath names1
  have hc2 : Canonical e2.path := hp2 ▸ canonical_relPath names2
  unfold gotFileindexCmp
  rw [h1.pathLen_eq, h2.pathLen_eq]
  exact gotPathCmpLen_of_canonical hc1 hc2

end Got

import Got.Worktree.Install

/-!
# Reverting local changes

`got_worktree_revert` is given paths, and for each file that has a status there
`revert_file` is called. It puts the blob the status was made of back in its
place: the staged one if the file is staged, or else that of the entry.

Which type of file it makes of it, and whether that is executable, it takes
from the tree of the commit the work tree is based on. The entry need not be
from that commit. And where the file was deleted, or only its mode was changed,
the entry is updated with the blob that was installed and with the base commit,
so that a staged blob becomes the base blob of the entry.

A change is undone exactly if neither matters (`undone_iff`).
-/

namespace Got

/-- **A work tree while it is changed**, and what the callback keeps. -/
structure WorkingCopy (σ : Type) where
  tree : DiskTree
  fileindex : List FileIndexEntry
  arg : σ

/-- The blob with which the file on disk is compared. -/
def FileIndexEntry.statusBlob (ie : FileIndexEntry) : Object :=
  if ie.stagedStatus = .modify ∨ ie.stagedStatus = .add then ie.stagedBlobSha1 else ie.blobSha1

/-- Remember that a symlink was bad. -/
def FileIndexEntry.withBadSymlink (ie : FileIndexEntry) (isBadSymlink : Bool) : FileIndexEntry :=
  if isBadSymlink then { ie with filetype := .badSymlink } else ie

/-- The entry of a file in the tree of the base commit. -/
def Checkout.baseEntry (wt : Checkout) (path : RelPath) : Option TreeEntry :=
  match gotObjectIdByPath wt.baseCommitId (wt.pathPrefix ++ path.val.dropLast) with
  | .error _ => none
  | .ok treeId =>
    match gotObjectOpenAsTree treeId with
    | .error _ => none
    | .ok tree => findEntryByName tree (path.val.getLast (relPath_ne_nil path)).val

section RevertFile

variable {σ : Type} (host : Host) (now : Timespec) (wt : Checkout)
  (progressCb : Status → RelPath → σ → Except GotErr σ)

/-- The tree entry of a file that is reverted. If the file was added there may be none; an
error that there is no tree is then left over, for the case that nothing is done. -/
def revertTreeEntry (path : RelPath) (added : Bool) :
    Except GotErr (Option TreeEntry × Except GotErr Unit) :=
  match gotObjectIdByPath wt.baseCommitId (wt.pathPrefix ++ path.val.dropLast) with
  | .error e => if e = .noTreeEntry ∧ added then .ok (none, .error e) else .error e
  | .ok treeId => do
    let tree ← gotObjectOpenAsTree treeId
    match findEntryByName tree (path.val.getLast (relPath_ne_nil path)).val with
    | none => if added then .ok (none, .ok ()) else .error .noTreeEntry
    | some te => .ok (some te, .ok ())

/-- Why a file is installed that is reverted. -/
def reverting : InstallReason := { revertingVersionedFile := true }

/-- Install the blob of a file that is reverted. -/
def revertInstall (t : DiskTree) (ie : FileIndexEntry) (te : Option TreeEntry) (id : Object)
    (content : Bytes) (s : σ) : Except GotErr (DiskTree × Bool × σ) :=
  if te.any (fun te => S_ISLNK te.mode) then
    installSymlink host now wt progressCb reverting t ie.path id content s
  else do
    let (t, s) ← installBlob now progressCb reverting t ie.path
      ((te.map TreeEntry.mode).getD GOT_DEFAULT_FILE_MODE) ie.permsToSt content false s
    return (t, false, s)

/-- Put a blob back in its place, and update the entry of the file if need be. -/
def revertBlob (status stagedStatus : Status) (ie : FileIndexEntry) (te : Option TreeEntry)
    (st : WorkingCopy σ) : Except GotErr (WorkingCopy σ) := do
  let id := if stagedStatus = .modify ∨ stagedStatus = .add then ie.stagedBlobSha1
    else ie.blobSha1
  let content ← gotObjectOpenAsBlob id
  let (t, isBadSymlink, s) ← revertInstall host now wt progressCb st.tree ie te id content st.arg
  let ie ← if status = .delete ∨ status = .modeChange then
      ie.update (t.node ie.path) (some id) (some (some wt.baseCommitId)) true
    else .ok ie
  return ⟨t, replaceEntry st.fileindex (ie.withBadSymlink isBadSymlink), s⟩

/-- **`revert_file`**, without a callback for patches. -/
def revertFile (status stagedStatus : Status) (relpath : RelPath) (_ _ : Option Object)
    (_ : Option CommitId) (st : WorkingCopy σ) : Except GotErr (WorkingCopy σ) :=
  if status = .delete ∧ stagedStatus ≠ .noChange then .ok st
  else if status = .unversioned then do
    let s ← progressCb .unversioned relpath st.arg
    return { st with arg := s }
  else
    match gotFileindexEntryGet st.fileindex relpath with
    | none => .error .badPath
    | some ie => do
      let (te, pending) ← revertTreeEntry wt ie.path (status = .add ∨ stagedStatus = .add)
      match status with
      | .add => do
        let s ← progressCb .revert ie.path st.arg
        return { st with fileindex := gotFileindexEntryRemove st.fileindex ie, arg := s }
      | .delete | .modify | .modeChange | .conflict | .missing =>
        revertBlob host now wt progressCb status stagedStatus ie te st
      | _ => do
        pending
        return st

/-- **`got_worktree_revert`** -/
def gotWorktreeRevert (paths : List (List Name)) (st : WorkingCopy σ) :
    Except GotErr (WorkingCopy σ) :=
  paths.foldlM (fun st path => worktreeStatus host st.tree.node st.fileindex
    (revertFile host now wt progressCb) path st) st

end RevertFile

/-! ## What is asked for -/

namespace FileIndexEntry

/-- A node on disk is of the type of an entry, and executable if that is. An entry without
a type has none that a node could be of. -/
def HasTypeOf (ie : FileIndexEntry) (sb : Inode) : Prop :=
  match ie.filetype with
  | .none => False
  | .symlink => S_ISLNK sb.mode
  | .regularFile | .badSymlink => S_ISREG sb.mode ∧ ¬ie.xbitDiffers sb.mode

/-- The ids of an entry, where it has them. -/
def baseBlob (ie : FileIndexEntry) : Option Object := if ie.hasBlob then some ie.blobSha1 else none
/-- The commit an entry is based on. -/
def baseCommit (ie : FileIndexEntry) : Option CommitId :=
  if ie.hasCommit then some ie.commitSha1 else none

end FileIndexEntry

/-- **The change of a file was undone**: the blob with which it was compared is on disk, as
a file of the type of the entry, and is found to be so, and the entry is still the same as
far as its ids go. -/
structure Undone (host : Host) (ie ie' : FileIndexEntry) (sb : Inode) : Prop where
  content : ∃ content, gotObjectOpenAsBlob ie.statusBlob = .ok content ∧ sb.data = .ok content
  type : ie.HasTypeOf sb
  status : getFileStatus host ie' (some sb) = .ok .noChange
  blob : ie'.baseBlob = ie.baseBlob
  commit : ie'.baseCommit = ie.baseCommit
  stage : ie'.stage = ie.stage
  stagedBlob : ie'.stagedBlobSha1 = ie.stagedBlobSha1

/-- **The base commit agrees with an entry** on the type of the file, given the content that
is to be installed. -/
def BaseAgrees (host : Host) (wt : Checkout) (t : DiskTree) (ie : FileIndexEntry)
    (content : Bytes) : Prop :=
  let te := wt.baseEntry ie.path
  let isLink := te.any (fun te => S_ISLNK te.mode)
  match ie.filetype with
  | .none => False
  | .symlink => isLink ∧ linkIsBad host wt ie.path ie.statusBlob content = .ok false
      ∧ (0 ∉ content ∨ LinkIsThere t ie.path content)
  | .regularFile | .badSymlink =>
    if isLink then
      linkIsBad host wt ie.path ie.statusBlob content = .ok true ∧ ¬ie.xbitDiffers 0
    else ¬ie.xbitDiffers ((te.map TreeEntry.mode).getD GOT_DEFAULT_FILE_MODE)

/-- The statuses of a file with a local change that can be undone. -/
def LocallyChanged (status : Status) : Prop :=
  status ∈ [.modify, .modeChange, .conflict, .delete, .missing]

instance (status : Status) : Decidable (LocallyChanged status) :=
  inferInstanceAs (Decidable (status ∈ [.modify, .modeChange, .conflict, .delete, .missing]))

/-- **When a change is undone**: a deleted file is not staged; there is a blob to compare
with; the base commit has the type of the entry; and where the entry is updated, it is from
the base commit and its blob is not a staged one. -/
structure RevertsExactly (host : Host) (wt : Checkout) (t : DiskTree) (ie : FileIndexEntry)
    (status : Status) : Prop where
  unstaged : status = .delete → ie.stage = .none
  blob : ie.hasBlob ∨ ie.stage = .add
  base : ∀ content, gotObjectOpenAsBlob ie.statusBlob = .ok content →
    BaseAgrees host wt t ie content
  ids : status = .delete ∨ status = .modeChange →
    ie.baseBlob = some ie.statusBlob ∧ ie.baseCommit = some (some wt.baseCommitId)

/-! ## The status of a file that was put back -/

section Status

variable {host : Host} {ie : FileIndexEntry} {sb : Inode} {content : Bytes} {status : Status}

theorem stagedStatus_eq_noChange_iff : ie.stagedStatus = .noChange ↔ ie.stage = .none := by
  rw [FileIndexEntry.stagedStatus]
  cases ie.stage <;> decide

theorem stagedStatus_eq_add_iff : ie.stagedStatus = .add ↔ ie.stage = .add := by
  rw [FileIndexEntry.stagedStatus]
  cases ie.stage <;> decide

/-- What is of the type of an entry is a file. -/
theorem FileIndexEntry.HasTypeOf.isFile (h : ie.HasTypeOf sb) :
    S_ISREG sb.mode ∧ ¬ie.xbitDiffers sb.mode ∨ S_ISLNK sb.mode ∧ ie.filetype = .symlink := by
  unfold FileIndexEntry.HasTypeOf at h
  cases htype : ie.filetype with
  | none =>
    rw [htype] at h
    exact h.elim
  | symlink =>
    rw [htype] at h
    exact Or.inr ⟨h, rfl⟩
  | _ =>
    rw [htype] at h
    exact Or.inl h

/-- **A file with the content of its blob is unmodified**, if it is of the type of its
entry. -/
theorem getFileStatus_eq_noChange (hdisk : ie.hasFileOnDisk)
    (hblob : ie.hasBlob ∨ ie.stage = .add)
    (hcontent : gotObjectOpenAsBlob ie.statusBlob = .ok content) (hdata : sb.data = .ok content)
    (htype : ie.HasTypeOf sb)
    (hlen : S_ISLNK sb.mode → host.hdrlen ie.statusBlob + content.length < PATH_MAX) :
    getFileStatus host ie (some sb) = .ok .noChange := by
  have hfile := htype.isFile
  unfold getFileStatus
  dsimp only
  rw [if_neg (by tauto), if_neg (not_not.mpr hdisk),
    if_neg (fun h => hblob.elim h.1 fun hadd => h.2 (stagedStatus_eq_add_iff.mpr hadd))]
  by_cases hstat : ie.statInfoDiffers sb
  swap
  · exact if_pos hstat
  have hlnk : ¬(S_ISLNK sb.mode ∧ ie.filetype ≠ .symlink) := by
    rintro ⟨hl, hne⟩
    rcases hfile with ⟨hreg, -⟩ | ⟨-, h⟩
    · exact Inode.not_isReg_of_isLnk hl hreg
    · exact hne h
  rw [if_neg (not_not.mpr hstat), if_neg hlnk]
  refine bind_eq_ok_iff.mpr ⟨content, hcontent, bind_eq_ok_iff.mpr ⟨content, hdata, ?_⟩⟩
  rcases hfile with ⟨hreg, hx⟩ | ⟨hl, -⟩
  · rw [if_neg (fun hl => Inode.not_isReg_of_isLnk hl hreg), getRegularFileStatus,
      if_neg (not_not.mpr rfl), if_neg hx]
    rfl
  · have hshort : ¬PATH_MAX ≤ host.hdrlen ie.statusBlob + content.length := not_le.mpr (hlen hl)
    rw [if_pos hl, getSymlinkModificationStatus]
    refine (if_neg hshort).trans ?_
    rw [if_neg (not_not.mpr rfl)]

/-- Without a file on disk an entry has one status. -/
theorem getFileStatus_eq_delete {ondisk : Option Inode} (hdisk : ¬ie.hasFileOnDisk)
    (h : getFileStatus host ie ondisk = .ok status) : status = .delete ∨ status = .obstructed := by
  unfold getFileStatus at h
  cases ondisk with
  | none =>
    rw [if_neg hdisk] at h
    exact Or.inl (Except.ok.inj h).symm
  | some sb =>
    dsimp only at h
    by_cases hfile : ¬S_ISREG sb.mode ∧ ¬S_ISLNK sb.mode
    · rw [if_pos hfile] at h
      exact Or.inr (Except.ok.inj h).symm
    · rw [if_neg hfile, if_pos hdisk] at h
      exact Or.inl (Except.ok.inj h).symm

/-- A file without a blob is never unmodified, unless it is staged for addition. -/
theorem getFileStatus_ne_noChange (hblob : ¬(ie.hasBlob ∨ ie.stage = .add)) :
    getFileStatus host ie (some sb) ≠ .ok .noChange := by
  rw [not_or] at hblob
  intro h
  unfold getFileStatus at h
  dsimp only at h
  split at h
  · exact nomatch h
  split at h
  · exact nomatch h
  rw [if_pos ⟨hblob.1, fun hadd => hblob.2 (stagedStatus_eq_add_iff.mp hadd)⟩] at h
  exact nomatch h

end Status

/-! ## What is put back -/

section Installed

variable {σ : Type} {host : Host} {now : Timespec} {wt : Checkout}
  {progressCb : Status → RelPath → σ → Except GotErr σ} {t t' : DiskTree} {ie ie' : FileIndexEntry}
  {sb : Inode} {content : Bytes} {s s' : σ}

/-- The tree entry for a revert is the entry of the base commit. -/
theorem revertTreeEntry_eq {path : RelPath} {added : Bool} {te : Option TreeEntry}
    {pending : Except GotErr Unit} (h : revertTreeEntry wt path added = .ok (te, pending)) :
    te = wt.baseEntry path := by
  unfold revertTreeEntry at h
  unfold Checkout.baseEntry
  cases hid : gotObjectIdByPath wt.baseCommitId (wt.pathPrefix ++ path.val.dropLast) with
  | error e =>
    rw [hid] at h
    dsimp only at h ⊢
    split at h
    · cases h
      rfl
    · exact nomatch h
  | ok treeId =>
    rw [hid] at h
    dsimp only at h ⊢
    obtain ⟨tree, htree, h⟩ := bind_eq_ok_iff.mp h
    rw [htree]
    dsimp only
    split at h
    · rename_i hnone
      split at h
      · cases h
        exact hnone.symm
      · exact nomatch h
    · rename_i te' hte
      cases h
      exact hte.symm

/-- Only the executable bit of a mode counts. -/
theorem FileIndexEntry.xbitDiffers_congr {mode mode' : UInt32}
    (h : mode &&& S_IXUSR = mode' &&& S_IXUSR) : ie.xbitDiffers mode = ie.xbitDiffers mode' := by
  rw [xbitDiffers, xbitDiffers, h]

/-- Of the type of an entry is a regular file, if the entry is that of one. -/
theorem FileIndexEntry.hasTypeOf_of_isReg (h : S_ISREG sb.mode) :
    ie.HasTypeOf sb ↔ (ie.filetype = .regularFile ∨ ie.filetype = .badSymlink)
      ∧ ¬ie.xbitDiffers sb.mode := by
  have hlnk : ¬S_ISLNK sb.mode := fun hl => Inode.not_isReg_of_isLnk hl h
  unfold HasTypeOf
  cases ie.filetype with
  | none => exact ⟨fun h => h.elim, fun h => h.1.elim (fun h => (nomatch h)) fun h => (nomatch h)⟩
  | symlink =>
    exact ⟨fun h => absurd h hlnk, fun h => h.1.elim (fun h => (nomatch h)) fun h => (nomatch h)⟩
  | regularFile => exact ⟨fun hx => ⟨Or.inl rfl, hx.2⟩, fun hx => ⟨h, hx.2⟩⟩
  | badSymlink => exact ⟨fun hx => ⟨Or.inr rfl, hx.2⟩, fun hx => ⟨h, hx.2⟩⟩

/-- Of the type of an entry is a symlink, if the entry is that of one. -/
theorem FileIndexEntry.hasTypeOf_of_isLnk (h : S_ISLNK sb.mode) :
    ie.HasTypeOf sb ↔ ie.filetype = .symlink := by
  have hreg : ¬S_ISREG sb.mode := Inode.not_isReg_of_isLnk h
  unfold HasTypeOf
  cases ie.filetype with
  | none => exact ⟨fun h => h.elim, fun h => (nomatch h)⟩
  | symlink => exact iff_of_true h rfl
  | _ => exact ⟨fun h => absurd h.1 hreg, fun h => (nomatch h)⟩

/-- Whether the base commit agrees, where it has a symlink. -/
theorem baseAgrees_of_link (hlink : (wt.baseEntry ie.path).any (fun te => S_ISLNK te.mode)) :
    BaseAgrees host wt t ie content ↔
      (ie.filetype = .symlink ∧ linkIsBad host wt ie.path ie.statusBlob content = .ok false
        ∧ (0 ∉ content ∨ LinkIsThere t ie.path content)) ∨
      ((ie.filetype = .regularFile ∨ ie.filetype = .badSymlink)
        ∧ linkIsBad host wt ie.path ie.statusBlob content = .ok true ∧ ¬ie.xbitDiffers 0) := by
  unfold BaseAgrees
  dsimp only
  cases ie.filetype <;> simp [hlink]

/-- Whether it agrees where it has none. -/
theorem baseAgrees_of_not_link
    (hlink : ¬(wt.baseEntry ie.path).any (fun te => S_ISLNK te.mode)) :
    BaseAgrees host wt t ie content ↔ (ie.filetype = .regularFile ∨ ie.filetype = .badSymlink)
      ∧ ¬ie.xbitDiffers (((wt.baseEntry ie.path).map TreeEntry.mode).getD
        GOT_DEFAULT_FILE_MODE) := by
  unfold BaseAgrees
  dsimp only
  cases ie.filetype <;> simp [hlink]

/-- A file that was made of a blob is of the type of an entry if the executable bit is
right. -/
theorem hasTypeOf_installedFile {teMode stMode : UInt32} :
    ie.HasTypeOf (installedFile now teMode stMode content)
        ∧ (installedFile now teMode stMode content).data = .ok content ↔
      (ie.filetype = .regularFile ∨ ie.filetype = .badSymlink) ∧ ¬ie.xbitDiffers teMode := by
  have hreg : S_ISREG (installedFile now teMode stMode content).mode :=
    (Inode.isReg_iff _).mpr ⟨content, rfl⟩
  rw [FileIndexEntry.hasTypeOf_of_isReg hreg,
    FileIndexEntry.xbitDiffers_congr (installedFile_xusr now teMode stMode content)]
  exact and_iff_left rfl

/-- A symlink that was installed is of the type of an entry if that is a symlink, and the
target is right. -/
theorem hasTypeOf_linkInstalled {target : Bytes} (hnode : sb.node = .symlink target) :
    ie.HasTypeOf sb ∧ sb.data = .ok content ↔ ie.filetype = .symlink ∧ target = content := by
  have hdata : sb.data = .ok target := by
    rw [Inode.data, hnode]
  rw [FileIndexEntry.hasTypeOf_of_isLnk (sb.isLnk_iff.mpr ⟨target, hnode⟩), hdata,
    Except.ok.injEq]

/-- What can be a symlink fits in the buffer. -/
theorem linkIsBad_short {path : RelPath} {id : Object}
    (h : linkIsBad host wt path id content = .ok false) :
    host.hdrlen id + content.length < PATH_MAX := by
  unfold linkIsBad at h
  split at h
  · exact nomatch h
  · rename_i hshort
    exact not_le.mp hshort

/-- **What was put back is of the type of the entry, and has its content, exactly if** the
base commit agrees with the entry. -/
theorem revertInstall_agrees_iff {isBadSymlink : Bool}
    (h : revertInstall host now wt progressCb t ie (wt.baseEntry ie.path) ie.statusBlob content s
      = .ok (t', isBadSymlink, s')) :
    ∃ sb, t'.node ie.path = some sb ∧ sb.isFile
      ∧ (isBadSymlink → S_ISREG sb.mode)
      ∧ (S_ISLNK sb.mode → host.hdrlen ie.statusBlob + content.length < PATH_MAX)
      ∧ (ie.HasTypeOf sb ∧ sb.data = .ok content ↔ BaseAgrees host wt t ie content) := by
  have hfile (teMode stMode : UInt32) :
      S_ISREG (installedFile now teMode stMode content).mode :=
    (Inode.isReg_iff _).mpr ⟨content, rfl⟩
  have hnotLink (teMode stMode : UInt32) :
      ¬S_ISLNK (installedFile now teMode stMode content).mode :=
    fun hl => Inode.not_isReg_of_isLnk hl (hfile teMode stMode)
  unfold revertInstall at h
  by_cases hlink : (wt.baseEntry ie.path).any (fun te => S_ISLNK te.mode)
  · rw [if_pos hlink] at h
    obtain ⟨hbad, hnode⟩ := installSymlink_node rfl h
    rw [baseAgrees_of_link hlink]
    cases isBadSymlink with
    | true =>
      rw [if_pos rfl] at hnode
      refine ⟨_, hnode, decide_eq_true (Or.inl (hfile _ _)), fun _ => hfile _ _,
        fun hl => absurd hl (hnotLink _ _), ?_⟩
      rw [hasTypeOf_installedFile, hbad, Except.ok.injEq,
        FileIndexEntry.xbitDiffers_congr (show GOT_DEFAULT_FILE_MODE &&& S_IXUSR = 0 &&& S_IXUSR
          from rfl)]
      simp
    | false =>
      rw [if_neg Bool.false_ne_true] at hnode
      obtain ⟨sb, target, hsb, hsym, htarget⟩ := hnode
      refine ⟨sb, hsb, decide_eq_true (Or.inr (sb.isLnk_iff.mpr ⟨target, hsym⟩)),
        fun hb => (nomatch hb), fun _ => linkIsBad_short hbad, ?_⟩
      rw [hasTypeOf_linkInstalled hsym, htarget, hbad, Except.ok.injEq]
      simp
  · rw [if_neg hlink] at h
    obtain ⟨⟨t1, s1⟩, ht1, h⟩ := bind_eq_ok_iff.mp h
    cases h
    rw [baseAgrees_of_not_link hlink]
    exact ⟨_, installBlob_node rfl ht1, decide_eq_true (Or.inl (hfile _ _)),
      fun hb => (nomatch hb), fun hl => absurd hl (hnotLink _ _), hasTypeOf_installedFile⟩

end Installed

/-! ## The entry of a file that was put back -/

section Entry

variable {host : Host} {ie ie' : FileIndexEntry} {sb : Inode} {id : Object} {commit : CommitId}

/-- **An entry that was updated** has the type of what is on disk. -/
theorem hasTypeOf_update (hfile : sb.isFile)
    (h : ie.update (some sb) (some id) (some commit) true = .ok ie') : ie'.HasTypeOf sb := by
  unfold FileIndexEntry.update at h
  dsimp only at h
  split at h
  · exact nomatch h
  obtain rfl := Except.ok.inj h
  by_cases hlnk : S_ISLNK sb.mode
  · rw [FileIndexEntry.hasTypeOf_of_isLnk hlnk]
    exact if_pos hlnk
  · rw [Inode.isFile, decide_eq_true_iff, or_iff_left hlnk] at hfile
    rw [FileIndexEntry.hasTypeOf_of_isReg hfile]
    refine ⟨Or.inl (if_neg hlnk), ?_⟩
    unfold FileIndexEntry.xbitDiffers FileIndexEntry.permsToSt
    dsimp only
    rw [if_neg hlnk, if_neg hlnk, if_pos (Or.inl rfl), or_and_S_IXUSR,
      show S_IFREG &&& S_IXUSR = 0 from rfl, UInt32.zero_or, UInt32.and_assoc, UInt32.and_assoc,
      show S_IRWX &&& (S_IRWX &&& S_IXUSR) = S_IXUSR from rfl]
    exact fun hx => of_decide_eq_true hx rfl

/-- That a symlink was bad does not make another type of the entry of a regular file. -/
theorem hasTypeOf_withBadSymlink {isBadSymlink : Bool} (hbad : isBadSymlink → S_ISREG sb.mode)
    (h : ie.HasTypeOf sb) : (ie.withBadSymlink isBadSymlink).HasTypeOf sb := by
  unfold FileIndexEntry.withBadSymlink
  split
  · rename_i hb
    rw [FileIndexEntry.hasTypeOf_of_isReg (hbad hb)] at h ⊢
    refine ⟨Or.inr rfl, fun hx => h.2 ?_⟩
    unfold FileIndexEntry.xbitDiffers FileIndexEntry.permsToSt at hx ⊢
    rw [if_pos h.1]
    exact hx
  · exact h

/-- What a bad symlink changes of an entry is its type only. -/
theorem withBadSymlink_eq (ie : FileIndexEntry) (isBadSymlink : Bool) :
    ∃ filetype, ie.withBadSymlink isBadSymlink = { ie with filetype := filetype } := by
  unfold FileIndexEntry.withBadSymlink
  split
  · exact ⟨_, rfl⟩
  · exact ⟨ie.filetype, rfl⟩

end Entry

/-! ## When a change is undone -/

section Revert

variable {σ : Type} {host : Host} {now : Timespec} {wt : Checkout}
  {progressCb : Status → RelPath → σ → Except GotErr σ} {st st' : WorkingCopy σ}
  {ie : FileIndexEntry} {status : Status}

/-- **What `revertBlob` does**: something is installed, and the entry is updated or not. -/
theorem revertBlob_cases {te : Option TreeEntry}
    (hget : gotFileindexEntryGet st.fileindex ie.path = some ie)
    (h : revertBlob host now wt progressCb status ie.stagedStatus ie te st = .ok st') :
    ∃ content isBadSymlink s' ie1, gotObjectOpenAsBlob ie.statusBlob = .ok content
      ∧ revertInstall host now wt progressCb st.tree ie te ie.statusBlob content st.arg
        = .ok (st'.tree, isBadSymlink, s')
      ∧ (if status = .delete ∨ status = .modeChange then
          ie.update (st'.tree.node ie.path) (some ie.statusBlob) (some (some wt.baseCommitId)) true
        else .ok ie) = .ok ie1
      ∧ (ie1.path = ie.path →
        gotFileindexEntryGet st'.fileindex ie.path = some (ie1.withBadSymlink isBadSymlink)) := by
  unfold revertBlob at h
  dsimp only at h
  obtain ⟨content, hcontent, h⟩ := bind_eq_ok_iff.mp h
  obtain ⟨⟨t1, isBadSymlink, s1⟩, hinstall, h⟩ := bind_eq_ok_iff.mp h
  have hfound (ie1 : FileIndexEntry) (hpath : ie1.path = ie.path) :
      gotFileindexEntryGet (replaceEntry st.fileindex (ie1.withBadSymlink isBadSymlink)) ie.path
        = some (ie1.withBadSymlink isBadSymlink) := by
    refine gotFileindexEntryGet_replace ?_ hget
    obtain ⟨filetype, heq⟩ := withBadSymlink_eq ie1 isBadSymlink
    rw [heq, hpath]
  by_cases hupdate : status = .delete ∨ status = .modeChange
  · rw [if_pos hupdate] at h
    obtain ⟨ie1, hie1, h⟩ := bind_eq_ok_iff.mp h
    cases h
    exact ⟨content, isBadSymlink, s1, ie1, hcontent, hinstall, by rw [if_pos hupdate]; exact hie1,
      hfound ie1⟩
  · rw [if_neg hupdate] at h
    cases h
    exact ⟨content, isBadSymlink, s1, ie, hcontent, hinstall, if_neg hupdate, hfound ie⟩

/-- What an update leaves of an entry, and what it sets. -/
theorem update_fields {ie' : FileIndexEntry} {sb : Inode} {id : Object} {commit : CommitId}
    (h : ie.update (some sb) (some id) (some commit) true = .ok ie') :
    ie'.path = ie.path ∧ ie'.hasFileOnDisk ∧ ie'.hasBlob ∧ ie'.blobSha1 = id
      ∧ ie'.baseCommit = some commit ∧ ie'.stage = ie.stage
      ∧ ie'.stagedBlobSha1 = ie.stagedBlobSha1 := by
  unfold FileIndexEntry.update at h
  dsimp only at h
  split at h
  · exact nomatch h
  · obtain rfl := Except.ok.inj h
    exact ⟨rfl, rfl, rfl, rfl, rfl, rfl, rfl⟩

/-- The ids and the flags of an entry, which a bad symlink does not change. -/
def SameIds (ie ie' : FileIndexEntry) : Prop :=
  ie'.hasFileOnDisk = ie.hasFileOnDisk ∧ ie'.hasBlob = ie.hasBlob ∧ ie'.baseBlob = ie.baseBlob
    ∧ ie'.baseCommit = ie.baseCommit ∧ ie'.stage = ie.stage
    ∧ ie'.stagedBlobSha1 = ie.stagedBlobSha1 ∧ ie'.statusBlob = ie.statusBlob

theorem sameIds_withBadSymlink (ie : FileIndexEntry) (isBadSymlink : Bool) :
    SameIds ie (ie.withBadSymlink isBadSymlink) := by
  obtain ⟨filetype, heq⟩ := withBadSymlink_eq ie isBadSymlink
  rw [heq]
  exact ⟨rfl, rfl, rfl, rfl, rfl, rfl, rfl⟩

section Undone

variable {content : Bytes} {sb : Inode} {isBadSymlink : Bool}

/-- **Where the entry is updated**, its ids must be the ones it is given. -/
theorem undone_updated_iff {ie1 : FileIndexEntry}
    (hupdate : status = .delete ∨ status = .modeChange)
    (hreport : ¬(status = .delete ∧ ie.stage ≠ .none))
    (hcontent : gotObjectOpenAsBlob ie.statusBlob = .ok content) (hfile : sb.isFile)
    (hbad : isBadSymlink → S_ISREG sb.mode)
    (hshort : S_ISLNK sb.mode → host.hdrlen ie.statusBlob + content.length < PATH_MAX)
    (hagrees : ie.HasTypeOf sb ∧ sb.data = .ok content ↔ BaseAgrees host wt st.tree ie content)
    (hie1 : ie.update (some sb) (some ie.statusBlob) (some (some wt.baseCommitId)) true
      = .ok ie1) :
    Undone host ie (ie1.withBadSymlink isBadSymlink) sb ↔
      RevertsExactly host wt st.tree ie status := by
  obtain ⟨-, hdisk, hblob, hid, hcommit, hstage, hstaged⟩ := update_fields hie1
  obtain ⟨hdisk', hblob', hbase', hcommit', hstage', hstaged', hstatus'⟩ :=
    sameIds_withBadSymlink ie1 isBadSymlink
  have hbase1 : ie1.baseBlob = some ie.statusBlob := by
    rw [FileIndexEntry.baseBlob, if_pos hblob, hid]
  constructor
  · intro hu
    refine ⟨fun hd => by_contra fun hs => hreport ⟨hd, hs⟩, Or.inl ?_, fun c hc => ?_, fun _ => ?_⟩
    · have h := hu.blob
      rw [hbase', hbase1, FileIndexEntry.baseBlob] at h
      by_contra hno
      rw [if_neg hno] at h
      exact nomatch h
    · obtain ⟨c', hc', hdata⟩ := hu.content
      obtain rfl := Except.ok.inj (hcontent.symm.trans hc')
      obtain rfl := Except.ok.inj (hc.symm.trans hc')
      exact hagrees.mp ⟨hu.type, hdata⟩
    · exact ⟨by rw [← hu.blob, hbase', hbase1], by rw [← hu.commit, hcommit', hcommit]⟩
  · intro hr
    obtain ⟨htype, hdata⟩ := hagrees.mpr (hr.base content hcontent)
    obtain ⟨hids, hcids⟩ := hr.ids hupdate
    have hsame : ie1.statusBlob = ie.statusBlob := by
      have hst : ie1.stagedStatus = ie.stagedStatus := by
        rw [FileIndexEntry.stagedStatus, hstage, FileIndexEntry.stagedStatus]
      rw [FileIndexEntry.statusBlob, hst, hstaged, hid]
      conv_rhs => rw [FileIndexEntry.statusBlob]
      split
      · rfl
      · rename_i h
        rw [FileIndexEntry.statusBlob, if_neg h]
    have hstatus : getFileStatus host (ie1.withBadSymlink isBadSymlink) (some sb)
        = .ok .noChange :=
      getFileStatus_eq_noChange (hdisk'.trans hdisk) (Or.inl (hblob'.trans hblob))
        (by rw [hstatus', hsame, hcontent]) hdata
        (hasTypeOf_withBadSymlink hbad (hasTypeOf_update hfile hie1))
        (by rw [hstatus', hsame]; exact hshort)
    exact ⟨⟨content, hcontent, hdata⟩, htype, hstatus, by rw [hbase', hbase1, hids],
      by rw [hcommit', hcommit, hcids], hstage'.trans hstage, hstaged'.trans hstaged⟩

/-- **Where the entry stays as it is**, only the file matters. -/
theorem undone_kept_iff (hupdate : ¬(status = .delete ∨ status = .modeChange))
    (hdisk : ie.hasFileOnDisk) (hcontent : gotObjectOpenAsBlob ie.statusBlob = .ok content)
    (hbad : isBadSymlink → S_ISREG sb.mode)
    (hshort : S_ISLNK sb.mode → host.hdrlen ie.statusBlob + content.length < PATH_MAX)
    (hagrees : ie.HasTypeOf sb ∧ sb.data = .ok content ↔ BaseAgrees host wt st.tree ie content) :
    Undone host ie (ie.withBadSymlink isBadSymlink) sb ↔
      RevertsExactly host wt st.tree ie status := by
  obtain ⟨hdisk', hblob', hbase', hcommit', hstage', hstaged', hstatus'⟩ :=
    sameIds_withBadSymlink ie isBadSymlink
  constructor
  · intro hu
    refine ⟨fun hd => absurd (Or.inl hd) hupdate, ?_, fun c hc => ?_, fun hd => absurd hd hupdate⟩
    · by_contra hno
      refine getFileStatus_ne_noChange ?_ hu.status
      rw [hblob', hstage']
      exact hno
    · obtain ⟨c', hc', hdata⟩ := hu.content
      obtain rfl := Except.ok.inj (hcontent.symm.trans hc')
      obtain rfl := Except.ok.inj (hc.symm.trans hc')
      exact hagrees.mp ⟨hu.type, hdata⟩
  · intro hr
    obtain ⟨htype, hdata⟩ := hagrees.mpr (hr.base content hcontent)
    have hstatus : getFileStatus host (ie.withBadSymlink isBadSymlink) (some sb)
        = .ok .noChange :=
      getFileStatus_eq_noChange (hdisk'.trans hdisk) (by rw [hblob', hstage']; exact hr.blob)
        (by rw [hstatus', hcontent]) hdata (hasTypeOf_withBadSymlink hbad htype)
        (by rw [hstatus']; exact hshort)
    exact ⟨⟨content, hcontent, hdata⟩, htype, hstatus, hbase', hcommit', hstage', hstaged'⟩

end Undone

/-- **Of a file that is put back, the change is undone exactly if** the base commit agrees and
the entry is not given other ids. -/
theorem undone_revertBlob_iff {ondisk : Option Inode} (hchanged : LocallyChanged status)
    (hstatus : getFileStatus host ie ondisk = .ok status)
    (hreport : ¬(status = .delete ∧ ie.stage ≠ .none))
    (hget : gotFileindexEntryGet st.fileindex ie.path = some ie)
    (h : revertBlob host now wt progressCb status ie.stagedStatus ie (wt.baseEntry ie.path) st
      = .ok st') :
    (∃ sb ie', st'.tree.node ie.path = some sb
      ∧ gotFileindexEntryGet st'.fileindex ie.path = some ie' ∧ Undone host ie ie' sb) ↔
    RevertsExactly host wt st.tree ie status := by
  obtain ⟨content, isBadSymlink, s', ie1, hcontent, hinstall, hie1, hfound⟩ :=
    revertBlob_cases hget h
  obtain ⟨sb, hsb, hfile, hbad, hshort, hagrees⟩ := revertInstall_agrees_iff hinstall
  have hunique (hpath : ie1.path = ie.path) :
      (∃ sb ie', st'.tree.node ie.path = some sb
        ∧ gotFileindexEntryGet st'.fileindex ie.path = some ie' ∧ Undone host ie ie' sb) ↔
      Undone host ie (ie1.withBadSymlink isBadSymlink) sb := by
    constructor
    · rintro ⟨sb', ie', hsb', hie', hu⟩
      obtain rfl := Option.some_inj.mp (hsb.symm.trans hsb')
      obtain rfl := Option.some_inj.mp ((hfound hpath).symm.trans hie')
      exact hu
    · exact fun hu => ⟨sb, _, hsb, hfound hpath, hu⟩
  by_cases hupdate : status = .delete ∨ status = .modeChange
  · rw [if_pos hupdate, hsb] at hie1
    rw [hunique (update_fields hie1).1]
    exact undone_updated_iff hupdate hreport hcontent hfile hbad hshort hagrees hie1
  · rw [if_neg hupdate] at hie1
    obtain rfl := Except.ok.inj hie1
    rw [hunique rfl]
    refine undone_kept_iff hupdate (by_contra fun hdisk => ?_) hcontent hbad hshort hagrees
    rcases getFileStatus_eq_delete hdisk hstatus with rfl | rfl
    · exact hupdate (Or.inl rfl)
    · exact absurd hchanged (by decide)

/-- What is reported of a file is what `revert_file` is called with. -/
theorem gotWorktreeRevert_file (hchanged : LocallyChanged status)
    (hstatus : getFileStatus host ie (st.tree.node ie.path) = .ok status)
    (hget : gotFileindexEntryGet st.fileindex ie.path = some ie) :
    gotWorktreeRevert host now wt progressCb [ie.path] st
      = revertFile host now wt progressCb status ie.stagedStatus ie.path
          ie.baseBlob (if ie.stagedStatus = .add ∨ ie.stagedStatus = .modify
            then some ie.stagedBlobSha1 else none) ie.baseCommit st := by
  have hobstructed : status ≠ .obstructed := by
    rintro rfl
    exact absurd hchanged (by decide)
  have hne : ¬(status = .noChange ∧ ie.stagedStatus = .noChange) := by
    rintro ⟨rfl, -⟩
    exact absurd hchanged (by decide)
  unfold gotWorktreeRevert
  rw [List.foldlM_cons, worktreeStatus_file hget fun _ hsb =>
    not_dir_of_getFileStatus hstatus hobstructed hsb, reportFileStatus, hstatus, ok_bind,
      if_neg hne]
  exact bind_pure _

/-- **`got_worktree_revert` undoes the change of a file exactly if** nothing but the base
commit, or an id that is not the entry's, is in the way. -/
theorem undone_iff (hchanged : LocallyChanged status)
    (hstatus : getFileStatus host ie (st.tree.node ie.path) = .ok status)
    (hget : gotFileindexEntryGet st.fileindex ie.path = some ie)
    (h : gotWorktreeRevert host now wt progressCb [ie.path] st = .ok st') :
    (∃ sb ie', st'.tree.node ie.path = some sb
      ∧ gotFileindexEntryGet st'.fileindex ie.path = some ie' ∧ Undone host ie ie' sb) ↔
    RevertsExactly host wt st.tree ie status := by
  rw [gotWorktreeRevert_file hchanged hstatus hget] at h
  unfold revertFile at h
  split at h
  · -- a file that is staged and deleted is left alone
    rename_i hreport
    obtain rfl := Except.ok.inj h
    refine iff_of_false ?_ fun hr =>
      hreport.2 (stagedStatus_eq_noChange_iff.mpr (hr.unstaged hreport.1))
    rintro ⟨sb, ie', hsb, hie', hu⟩
    obtain rfl := Option.some_inj.mp (hget.symm.trans hie')
    rw [hsb, hu.status, hreport.1] at hstatus
    exact nomatch hstatus
  rename_i hreport
  rw [Ne, stagedStatus_eq_noChange_iff] at hreport
  have hversioned : status ≠ .unversioned := by
    rintro rfl
    exact absurd hchanged (by decide)
  rw [if_neg hversioned, hget] at h
  dsimp only at h
  obtain ⟨⟨te, pending⟩, hte, h⟩ := bind_eq_ok_iff.mp h
  obtain rfl := revertTreeEntry_eq hte
  have hput : revertBlob host now wt progressCb status ie.stagedStatus ie
      (wt.baseEntry ie.path) st = .ok st' := by
    unfold LocallyChanged at hchanged
    simp only [List.mem_cons, List.not_mem_nil, or_false] at hchanged
    rcases hchanged with rfl | rfl | rfl | rfl | rfl <;> exact h
  exact undone_revertBlob_iff hchanged hstatus hreport hget hput

end Revert

/-! ## A staged file of which the mode was changed -/

def fileName : Name := ⟨['f'], isName_f⟩

/-- A file `f` that can be executed. -/
def executableFile : Inode := ⟨.file [0x62], 0o755, ⟨2, 0⟩, ⟨2, 0⟩, rwxPerms_and_fmt⟩

/-- A work tree with one file. -/
def oneFileTree (sb : Inode) : DiskTree :=
  (FileTree.ofRoot someDir : DiskTree).put [fileName] sb ⟨_, rfl, rfl⟩ (by decide)

/-- The base commit has the file with the content `a`. -/
def oneFileCommit : Commit :=
  .mk (.tree (.cons GOT_DEFAULT_FILE_MODE fileName (.blob [0x61]) .nil)) .nil ⟨[], 0, [], 0, []⟩

/-- A checkout of one commit. -/
def oneFileCheckout : Checkout := ⟨[], [], oneFileCommit⟩

/-- What is staged has the content `b`. -/
def stagedEntry : FileIndexEntry :=
  { path := ⟨[fileName], List.cons_ne_nil _ _⟩, filetype := .regularFile, perms := 0o644,
    blobSha1 := .blob [0x61], commitSha1 := some oneFileCommit, size := 1,
    stage := .modify, stagedFiletype := .regularFile, stagedBlobSha1 := .blob [0x62] }

/-- **The base blob of a staged file is lost** where its mode is reverted. -/
theorem not_undone_stagedEntry :
    getFileStatus someHost stagedEntry ((oneFileTree executableFile).node stagedEntry.path)
        = .ok .modeChange
      ∧ ∃ st', gotWorktreeRevert someHost ⟨3, 0⟩ oneFileCheckout (fun _ _ s => .ok s)
          [stagedEntry.path] ⟨oneFileTree executableFile, [stagedEntry], ()⟩ = .ok st'
        ∧ ¬∃ sb ie', st'.tree.node stagedEntry.path = some sb
          ∧ gotFileindexEntryGet st'.fileindex stagedEntry.path = some ie'
          ∧ Undone someHost stagedEntry ie' sb := by
  refine ⟨rfl, _, rfl, ?_⟩
  rintro ⟨sb, ie', -, hie', hu⟩
  obtain rfl := Option.some_inj.mp hie'
  exact absurd hu.blob (by decide)

/-- A file of which the content was changed. -/
def changedFile : Inode := ⟨.file [0x62], 0o644, ⟨2, 0⟩, ⟨2, 0⟩, rwPerms_and_fmt⟩

/-- Its entry, which is not staged. -/
def changedEntry : FileIndexEntry :=
  { stagedEntry with stage := .none, stagedFiletype := .none, stagedBlobSha1 := nullBlobId }

/-- The content of a file that is not staged is put back. -/
theorem undone_changedFile :
    ∃ st', gotWorktreeRevert someHost ⟨3, 0⟩ oneFileCheckout (fun _ _ s => .ok s)
        [changedEntry.path] ⟨oneFileTree changedFile, [changedEntry], ()⟩ = .ok st'
      ∧ ∃ sb ie', st'.tree.node changedEntry.path = some sb
        ∧ gotFileindexEntryGet st'.fileindex changedEntry.path = some ie'
        ∧ Undone someHost changedEntry ie' sb := by
  obtain ⟨st', h⟩ : ∃ st', gotWorktreeRevert someHost ⟨3, 0⟩ oneFileCheckout (fun _ _ s => .ok s)
      [changedEntry.path] ⟨oneFileTree changedFile, [changedEntry], ()⟩ = .ok st' := ⟨_, rfl⟩
  have hstatus : getFileStatus someHost changedEntry
    ((oneFileTree changedFile).node changedEntry.path)
      = .ok .modify := rfl
  refine ⟨st', h, (undone_iff (by decide) hstatus rfl h).mpr
    ⟨fun h => (nomatch h), Or.inl rfl, fun content _ => ?_, fun h => ?_⟩⟩
  · show ¬changedEntry.xbitDiffers GOT_DEFAULT_FILE_MODE
    decide
  · exact h.elim (fun h => (nomatch h)) fun h => (nomatch h)

end Got

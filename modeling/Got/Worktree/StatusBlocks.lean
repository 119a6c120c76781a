import Got.Lib.Numeral
import Got.Worktree.Stage

/-!
# Comparing a file with a blob, block by block

When `get_file_status` compares a file with its blob, it reads both in blocks. The stream
of a blob begins with the header that a loose object has, so that the first block of the
file is made shorter by as much. A symlink is compared with what is behind the header of
its blob, which together have to fit into a buffer of `PATH_MAX` bytes.

The loops find out if what they compare is the same (`compareLoop_eq`, `readTarget_eq`),
and so the status is what it was said to be in terms of whole files
(`Blockwise.getFileStatus_eq`). From this comes when a file is not changed
(`Blockwise.noChange_iff`). The permissions of a symlink do not matter, of which the file
index keeps none.
-/

namespace Got

namespace Blockwise

/-- The size of a block: `sizeof(fbuf)` -/
def BLOCKSIZE : ℕ := 8192

/-- **The loop of `get_file_status`**: whether a file differs from a blob. The header is
skipped in the first block, which must not be longer than one. -/
def compareLoop : ℕ → ℕ → Bytes → Bytes → Except GotErr Bool
  | 0, _, _, _ => .error .fuel
  | fuel + 1, hdrlen, blob, f =>
    if BLOCKSIZE < hdrlen then .error .outOfMap
    else
      let bbuf := blob.take BLOCKSIZE
      let fbuf := f.take (BLOCKSIZE - hdrlen)
      if bbuf.length - hdrlen = 0 then .ok (decide (fbuf ≠ []))
      else if fbuf = [] then .ok true
      else if bbuf.length - hdrlen = fbuf.length then
        if (bbuf.drop hdrlen).take fbuf.length ≠ fbuf then .ok true
        else compareLoop fuel 0 (blob.drop BLOCKSIZE) (f.drop (BLOCKSIZE - hdrlen))
      else .ok true

/-- **The loop of `get_symlink_modification_status`**: the target that the blob has. -/
def readTarget : ℕ → ℕ → Bytes → Bytes → Except GotErr Bytes
  | 0, _, _, _ => .error .fuel
  | fuel + 1, hdrlen, blob, target =>
    let buf := blob.take BLOCKSIZE
    if PATH_MAX ≤ buf.length + target.length then .error .noSpace
    else if buf = [] then .ok target
    else readTarget fuel 0 (blob.drop BLOCKSIZE) (target ++ buf.drop hdrlen)

/-- **`get_symlink_modification_status`**, of which `readlink` gives `PATH_MAX` bytes at
most. -/
def getSymlinkModificationStatus (header content target : Bytes) : Except GotErr Status := do
  let targetPath ← readTarget (content.length + 2) header.length (header ++ content) []
  let etarget := target.take PATH_MAX
  return if etarget.length ≠ targetPath.length ∨ etarget.take targetPath.length ≠ targetPath
    then .modify else .noChange

/-- The status of a regular file, by its content. -/
def getRegularFileStatus (ie : FileIndexEntry) (sb : Inode) (header content data : Bytes) :
    Except GotErr Status := do
  let modified ← compareLoop (content.length + 1) header.length (header ++ content) data
  return if modified then getModifiedFileContentStatus data
    else if ie.xbitDiffers sb.mode then .modeChange
    else .noChange

/-- **`get_file_status`**, for a repository that has blobs behind certain headers. -/
def getFileStatus (header : Object → Bytes) (ie : FileIndexEntry) (ondisk : Option Inode) :
    Except GotErr Status :=
  match ondisk with
  | none => .ok (if ie.hasFileOnDisk then .missing else .delete)
  | some sb =>
    if ¬S_ISREG sb.mode ∧ ¬S_ISLNK sb.mode then .ok .obstructed
    else if ¬ie.hasFileOnDisk then .ok .delete
    else if ¬ie.hasBlob ∧ ie.stagedStatus ≠ .add then .ok .add
    else if ¬ie.statInfoDiffers sb then .ok .noChange
    else if S_ISLNK sb.mode ∧ ie.filetype ≠ .symlink then .ok .modify
    else do
      let id := if ie.stagedStatus = .modify ∨ ie.stagedStatus = .add
        then ie.stagedBlobSha1 else ie.blobSha1
      let content ← gotObjectOpenAsBlob id
      let data ← sb.data
      if S_ISLNK sb.mode then getSymlinkModificationStatus (header id) content data
      else getRegularFileStatus ie sb (header id) content data

/-! ## What the loops find out -/

section Loops

variable {fuel : ℕ} {header content data target : Bytes}

/-- The first block of a blob. -/
theorem take_stream (hheader : header.length < BLOCKSIZE) :
    (header ++ content).take BLOCKSIZE = header ++ content.take (BLOCKSIZE - header.length) := by
  rw [List.take_append, List.take_of_length_le (Nat.le_of_lt hheader)]

/-- What is behind the first block of a blob. -/
theorem drop_stream (hheader : header.length < BLOCKSIZE) :
    (header ++ content).drop BLOCKSIZE = content.drop (BLOCKSIZE - header.length) := by
  rw [List.drop_append, List.drop_eq_nil_of_le (Nat.le_of_lt hheader), List.nil_append]

theorem take_eq_nil {k : ℕ} (hk : 0 < k) (h : data.take k = []) : data = [] :=
  (List.take_eq_nil_iff.mp h).resolve_left (Nat.ne_of_gt hk)

/-- **A file differs from a blob** if their contents do. -/
theorem compareLoop_eq (hheader : header.length < BLOCKSIZE) (hfuel : content.length < fuel) :
    compareLoop fuel header.length (header ++ content) data = .ok (decide (data ≠ content)) := by
  induction fuel generalizing header content data with
  | zero => exact absurd hfuel (Nat.not_lt_zero _)
  | succ fuel ih =>
    have hpos : 0 < BLOCKSIZE - header.length := Nat.sub_pos_of_lt hheader
    rw [compareLoop, if_neg (Nat.not_lt.mpr (Nat.le_of_lt hheader)), take_stream hheader,
      drop_stream hheader]
    generalize BLOCKSIZE - header.length = k at hpos ⊢
    dsimp only
    rw [List.length_append, Nat.add_sub_cancel_left, List.drop_left]
    by_cases hblob : (content.take k).length = 0
    · -- the blob has ended
      rw [if_pos hblob]
      obtain rfl := take_eq_nil hpos (List.eq_nil_of_length_eq_zero hblob)
      have hiff : data.take k = [] ↔ data = [] :=
        ⟨take_eq_nil hpos, fun h => by rw [h, List.take_nil]⟩
      exact congrArg Except.ok (decide_eq_decide.mpr (not_congr hiff))
    rw [if_neg hblob]
    by_cases hfile : data.take k = []
    · -- the file has ended
      rw [if_pos hfile]
      obtain rfl := take_eq_nil hpos hfile
      refine congrArg Except.ok (decide_eq_true ?_).symm
      rintro rfl
      exact hblob (congrArg List.length hfile)
    rw [if_neg hfile]
    by_cases hlen : (content.take k).length = (data.take k).length
    · rw [if_pos hlen, ← hlen, List.take_length]
      by_cases hsame : content.take k = data.take k
      · rw [if_neg (not_not_intro hsame)]
        have hless : (content.drop k).length < fuel := by
          rw [List.length_take] at hblob
          rw [List.length_drop]
          omega
        have hrest := @ih [] (content.drop k) (data.drop k) (Nat.succ_pos _) hless
        rw [List.nil_append, List.length_nil] at hrest
        rw [hrest]
        refine congrArg Except.ok (decide_eq_decide.mpr (not_congr ⟨fun h => ?_, fun h => ?_⟩))
        · rw [← List.take_append_drop k data, ← List.take_append_drop k content, hsame, h]
        · rw [h]
      · rw [if_pos hsame]
        rw [decide_eq_true (show data ≠ content from fun h => hsame (by rw [h]))]
    · rw [if_neg hlen]
      rw [decide_eq_true (show data ≠ content from fun h => hlen (by rw [h]))]

/-- **The target of a blob** is its content, if it fits into the buffer with the header. -/
theorem readTarget_eq :
    readTarget (fuel + 2) header.length (header ++ content) []
      = if PATH_MAX ≤ header.length + content.length then .error .noSpace else .ok content := by
  have hmax : PATH_MAX ≤ ((header ++ content).take BLOCKSIZE).length + ([] : Bytes).length
      ↔ PATH_MAX ≤ header.length + content.length := by
    rw [List.length_take, List.length_append, List.length_nil]
    unfold PATH_MAX BLOCKSIZE
    omega
  rw [readTarget]
  by_cases hlong : PATH_MAX ≤ header.length + content.length
  · rw [if_pos hlong, if_pos (hmax.mpr hlong)]
  rw [if_neg hlong, if_neg fun h => hlong (hmax.mp h)]
  -- one block holds all of it
  have hshort : (header ++ content).length ≤ BLOCKSIZE := by
    rw [List.length_append]
    unfold PATH_MAX at hlong
    unfold BLOCKSIZE
    omega
  rw [List.take_of_length_le hshort, List.drop_eq_nil_of_le hshort, List.drop_left,
    List.nil_append]
  split
  · next hnil => rw [(List.append_eq_nil_iff.mp hnil).2]
  · rw [readTarget, List.take_nil, if_neg, if_pos rfl]
    rw [List.length_nil]
    omega

/-- What `readlink` leaves out does not matter: a target of the blob is shorter. -/
theorem take_target_eq (hshort : content.length < PATH_MAX) :
    ((data.take PATH_MAX).length ≠ content.length
        ∨ (data.take PATH_MAX).take content.length ≠ content) ↔ data ≠ content := by
  rw [← not_iff_not, not_or, not_not, not_not, not_not]
  constructor
  · rintro ⟨hlen, htake⟩
    have hdata : data.take PATH_MAX = content := by
      rw [← hlen, List.take_length] at htake
      exact htake
    rw [List.length_take] at hlen
    rw [← hdata, List.take_of_length_le (by omega)]
  · rintro rfl
    rw [List.take_of_length_le (Nat.le_of_lt hshort)]
    exact ⟨rfl, List.take_length⟩

end Loops

/-! ## The status -/

section Status

variable {header : Object → Bytes} {ie : FileIndexEntry} {sb : Inode} {content data : Bytes}

/-- Reading a symlink in blocks or at once answers the same. -/
theorem getSymlinkModificationStatus_eq (h : Bytes) :
    getSymlinkModificationStatus h content data
      = Got.getSymlinkModificationStatus h.length data content := by
  unfold getSymlinkModificationStatus Got.getSymlinkModificationStatus
  rw [readTarget_eq]
  by_cases hlong : PATH_MAX ≤ h.length + content.length
  · rw [if_pos hlong, if_pos hlong]
    rfl
  · rw [if_neg hlong, if_neg hlong, ok_bind]
    exact congrArg Except.ok (if_congr (take_target_eq (by omega)) rfl rfl)

/-- Reading a file in blocks or at once answers the same. -/
theorem getRegularFileStatus_eq {h : Bytes} (hheader : h.length < BLOCKSIZE) :
    getRegularFileStatus ie sb h content data
      = .ok (Got.getRegularFileStatus ie sb data content) := by
  unfold getRegularFileStatus Got.getRegularFileStatus
  rw [compareLoop_eq hheader (Nat.lt_succ_self _), ok_bind]
  exact congrArg Except.ok (if_congr decide_eq_true_iff rfl rfl)

/-- **Comparing by blocks is comparing**, if the header is not as long as a block. -/
theorem getFileStatus_eq {host : Host} (hhost : ∀ id, host.hdrlen id = (header id).length)
    (hheader : (header ie.statusBlob).length < BLOCKSIZE) (ondisk : Option Inode) :
    getFileStatus header ie ondisk = Got.getFileStatus host ie ondisk := by
  unfold FileIndexEntry.statusBlob at hheader
  unfold getFileStatus Got.getFileStatus
  simp only [getSymlinkModificationStatus_eq, getRegularFileStatus_eq hheader, hhost]
  rfl

/-- What is there when the status is found out by content. -/
theorem getFileStatus_eq_noChange_iff_of_disk {host : Host} {P : Prop}
    (hdisk : ie.hasFileOnDisk → (Got.getFileStatus host ie (some sb) = .ok .noChange ↔ P)) :
    Got.getFileStatus host ie (some sb) = .ok .noChange ↔ ie.hasFileOnDisk ∧ P := by
  by_cases h : ie.hasFileOnDisk
  · rw [hdisk h]
    exact (and_iff_right h).symm
  · refine iff_of_false (fun hstatus => ?_) fun hp => h hp.1
    obtain hdel | hobs := getFileStatus_eq_delete h hstatus
    · cases hdel
    · cases hobs

/-- Changed content is never reported as unchanged. -/
theorem getModifiedFileContentStatus_ne_noChange (data : Bytes) :
    getModifiedFileContentStatus data ≠ .noChange := by
  unfold getModifiedFileContentStatus
  split
  · exact fun h => by cases h
  · exact fun h => by cases h

/-- **When a file is not changed**, of which what `lstat` gives is not what was recorded:
if its content is that of the blob, and it can be executed if it could be before. A
symlink has to be one for its entry, and have the target that is in the blob. -/
theorem noChange_iff (hstat : ie.statInfoDiffers sb)
    (hblob : ie.hasBlob ∨ ie.stagedStatus = .add)
    (hcontent : gotObjectOpenAsBlob ie.statusBlob = .ok content) (hdata : sb.data = .ok data)
    (hheader : (header ie.statusBlob).length < BLOCKSIZE) :
    (S_ISREG sb.mode → ie.filetype ≠ .symlink →
        (getFileStatus header ie (some sb) = .ok .noChange
          ↔ ie.hasFileOnDisk ∧ data = content ∧ ¬ie.xbitDiffers sb.mode))
      ∧ (S_ISLNK sb.mode → (header ie.statusBlob).length + content.length < PATH_MAX →
        (getFileStatus header ie (some sb) = .ok .noChange
          ↔ ie.hasFileOnDisk ∧ ie.filetype = .symlink ∧ data = content)) := by
  rw [@getFileStatus_eq header ie ⟨fun id => (header id).length, fun _ => []⟩ (fun _ => rfl)
    hheader]
  replace hblob : ie.hasBlob ∨ ie.stage = .add := hblob.imp_right stagedStatus_eq_add_iff.mp
  constructor
  · intro hreg _
    obtain ⟨content', hnode⟩ := sb.isReg_iff.mp hreg
    obtain rfl : content' = data := by
      unfold Inode.data at hdata
      rw [hnode] at hdata
      exact Except.ok.inj hdata
    refine getFileStatus_eq_noChange_iff_of_disk fun hdisk => ?_
    rw [getFileStatus_file hnode hdisk hblob, if_neg (not_not_intro hstat), hcontent, ok_bind]
    unfold Got.getRegularFileStatus
    by_cases hsame : content' = content
    · rw [if_neg (not_not_intro hsame)]
      by_cases hx : ie.xbitDiffers sb.mode
      · rw [if_pos hx]
        exact iff_of_false (fun h => by cases h) fun h => h.2 hx
      · rw [if_neg hx]
        exact iff_of_true rfl ⟨hsame, hx⟩
    · rw [if_pos hsame]
      exact iff_of_false
        (fun h => getModifiedFileContentStatus_ne_noChange content' (Except.ok.inj h))
        fun h => hsame h.1
  · intro hlnk hshort
    obtain ⟨target, hnode⟩ := sb.isLnk_iff.mp hlnk
    obtain rfl : target = data := by
      unfold Inode.data at hdata
      rw [hnode] at hdata
      exact Except.ok.inj hdata
    refine getFileStatus_eq_noChange_iff_of_disk fun hdisk => ?_
    rw [getFileStatus_symlink hnode hdisk hblob, if_neg (not_not_intro hstat)]
    by_cases htype : ie.filetype = .symlink
    · rw [if_neg (not_not_intro htype), hcontent, ok_bind]
      unfold Got.getSymlinkModificationStatus
      rw [if_neg (Nat.not_le.mpr hshort)]
      by_cases hsame : target = content
      · rw [if_neg (not_not_intro hsame)]
        exact iff_of_true rfl ⟨htype, hsame⟩
      · rw [if_pos hsame]
        exact iff_of_false (fun h => by cases h) fun h => hsame h.2
    · rw [if_pos htype]
      exact iff_of_false (fun h => by cases h) fun h => htype h.1

end Status

/-! ### Headers -/

/-- **The header of a loose blob.** There is none in a pack. -/
def looseHeader : Object → Bytes
  | .blob content => text "blob " ++ Numeral.decimal content.length ++ [0]
  | _ => []

/-- A header is shorter than a block: a size is less than 2^63. -/
theorem length_looseHeader_lt {content : Bytes} (h : content.length < 2 ^ 63) :
    (looseHeader (.blob content)).length < BLOCKSIZE := by
  have hdigits : (Numeral.decimal content.length).length ≤ 19 :=
    Numeral.length_numeral_le (by omega)
  show (text "blob " ++ Numeral.decimal content.length ++ [0]).length < BLOCKSIZE
  rw [List.length_append, List.length_append, show (text "blob ").length = 5 from rfl,
    List.length_singleton]
  unfold BLOCKSIZE
  omega

/-! ### A symlink and its permissions -/

/-- A symlink to `a`. -/
def someLink : Inode := ⟨.symlink [0x61], 0o755, ⟨2, 0⟩, ⟨2, 0⟩, rwxPerms_and_fmt⟩

theorem linkPath_ne_nil : [fileName] ≠ [] := List.cons_ne_nil _ _

/-- Its entry, which was updated before. -/
def linkEntry : FileIndexEntry :=
  { path := ⟨[fileName], linkPath_ne_nil⟩, filetype := .symlink, size := 1,
    blobSha1 := .blob [0x61] }

/-- The theorem at work on a symlink whose time changed and whose target did not. -/
theorem noChange_iff_someLink :
    linkEntry.statInfoDiffers someLink
      ∧ (S_ISREG someLink.mode → linkEntry.filetype ≠ .symlink →
        (getFileStatus looseHeader linkEntry (some someLink) = .ok .noChange
          ↔ linkEntry.hasFileOnDisk ∧ ([0x61] : Bytes) = [0x61]
            ∧ ¬linkEntry.xbitDiffers someLink.mode))
      ∧ (S_ISLNK someLink.mode →
        (looseHeader linkEntry.statusBlob).length + ([0x61] : Bytes).length < PATH_MAX →
        (getFileStatus looseHeader linkEntry (some someLink) = .ok .noChange
          ↔ linkEntry.hasFileOnDisk ∧ linkEntry.filetype = .symlink ∧ ([0x61] : Bytes) = [0x61])) :=
  ⟨by decide, noChange_iff (by decide) (Or.inl rfl) rfl rfl (length_looseHeader_lt (by decide))⟩

/-- **A symlink is not changed**, although it can be executed, which the file index does
not know. -/
theorem noChange_someLink :
    linkEntry.statInfoDiffers someLink ∧ S_ISLNK someLink.mode ∧ linkEntry.hasBlob
      ∧ linkEntry.xbitDiffers someLink.mode
      ∧ getFileStatus looseHeader linkEntry (some someLink) = .ok .noChange :=
  ⟨by decide, by decide, rfl, by decide, rfl⟩

end Blockwise

end Got

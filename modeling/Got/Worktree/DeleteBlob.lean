import Got.Worktree.Disk

/-!
# Incoming deletions

An update comes upon entries of the file index for which there is nothing in
the new tree, and each of them is given to `delete_blob`. A file that was
changed is to be kept, and to be added anew by the next commit. A file that was
not changed is to go, with the directories it leaves empty.

What is to be done depends on what is in the file, but what is done depends on
its status (`deleteBlob_cases`). They part with four kinds of files: a changed
symlink is replaced by a file with conflict markers, and its entry stays as it
is; a file of which only the executable bit was changed is left where it is; a
file is taken to be unchanged by what `lstat` says of it; and where there is
nothing else at all, the root of the work tree goes with the file.
-/

namespace Got

namespace FileIndexEntry

/-- The content on disk is not that of the blob of the entry. -/
def contentDiffers (ie : FileIndexEntry) (sb : Inode) : Bool :=
  match gotObjectOpenAsBlob ie.blobSha1, sb.data with
  | .ok content, .ok data => data ≠ content
  | _, _ => false

/-- **A file was changed locally**: it was added, or a symlink was put in its place, or
its content differs. -/
def LocalChange (ie : FileIndexEntry) (sb : Inode) : Prop :=
  ¬ie.hasBlob ∨ (S_ISLNK sb.mode ∧ ie.filetype ≠ .symlink) ∨ ie.contentDiffers sb

instance (ie : FileIndexEntry) (sb : Inode) : Decidable (ie.LocalChange sb) := by
  unfold LocalChange
  infer_instance

/-- An entry of a file that is to be added by the next commit. -/
def ScheduledAdd (ie : FileIndexEntry) : Prop :=
  ¬ie.hasBlob ∧ ¬ie.hasCommit ∧ ie.hasFileOnDisk ∧ ie.stage = .none

end FileIndexEntry

section DeleteBlob

variable {σ : Type} (host : Host) (now : Timespec) (idStr : Bytes) (stackMode : UInt32)
  (progressCb : Status → RelPath → σ → Except GotErr σ)

/-- **`delete_blob`**: the disk and the file index it leaves behind. If nothing is there
then `sb` is what was on the stack before. -/
def deleteBlob (t : DiskTree) (fileindex : List FileIndexEntry) (ie : FileIndexEntry) (s : σ) :
    Except GotErr (DiskTree × List FileIndexEntry × σ) :=
  if ie.stagedStatus ≠ .noChange then .error .fileStaged
  else do
    let ondisk ← t.lookup ie.path
    let status ← getFileStatus host ie ondisk
    if S_ISLNK ((ondisk.map Inode.mode).getD stackMode) ∧ status ≠ .noChange then do
      let target ← t.readlink ie.path
      let t ← installSymlinkConflict now idStr t ie.path none none target
      let s ← progressCb .conflict ie.path s
      return (t, fileindex, s)
    else if status = .modify ∨ status = .conflict ∨ status = .add then do
      let s ← progressCb .merge ie.path s
      let ie ← ie.update (t.node ie.path) none none false
      return (t, replaceEntry fileindex ie, s)
    else do
      let s ← progressCb .delete ie.path s
      let t ← if status = .noChange then t.removeOndiskFile ie.path else .ok t
      return (t, gotFileindexEntryRemove fileindex ie, s)

end DeleteBlob

/-! ## What is asked for -/

/-- **A deletion was applied** to an entry: what was changed is still there and is to be
added; what was not is gone, and with it the directories below the root that it leaves
empty; and where no file was to be expected, or none was there, it is only the entry that is
lost. -/
structure DeletionApplied (t t' : DiskTree) (fileindex' : List FileIndexEntry)
    (ie : FileIndexEntry) : Prop where
  kept : ∀ sb, t.node ie.path = some sb → sb.isFile → ie.hasFileOnDisk → ie.LocalChange sb →
    t'.node = t.node ∧ ∃ ie', gotFileindexEntryGet fileindex' ie.path = some ie' ∧ ie'.ScheduledAdd
  removed : ∀ sb, t.node ie.path = some sb → sb.isFile → ie.hasFileOnDisk → ¬ie.LocalChange sb →
    (∀ q, t'.node q = if q ≠ [] ∧ q <+: ie.path.val ∧ t.OnlyWay q ie.path then none else t.node q)
      ∧ gotFileindexEntryGet fileindex' ie.path = none
  lost : (t.node ie.path = none ∨ ∃ sb, t.node ie.path = some sb ∧ sb.isFile ∧ ¬ie.hasFileOnDisk) →
    t'.node = t.node ∧ gotFileindexEntryGet fileindex' ie.path = none
  noBlob : ∀ ie' ∈ fileindex', ie'.path = ie.path → ¬ie'.hasBlob

/-- **When a deletion is applied**: a symlink was not changed; a regular file was not
changed without a trace in what `lstat` says, nor was its executable bit changed alone; and
if the file is to go, something in the work tree is not on the way to it. -/
structure DeletesCleanly (t : DiskTree) (ie : FileIndexEntry) : Prop where
  symlink : ∀ sb, t.node ie.path = some sb → S_ISLNK sb.mode →
    ie.hasFileOnDisk ∧ ¬ie.LocalChange sb
  changed : ∀ sb, t.node ie.path = some sb → S_ISREG sb.mode → ie.hasFileOnDisk → ie.hasBlob →
    ie.LocalChange sb → ie.statInfoDiffers sb
  xbit : ∀ sb, t.node ie.path = some sb → S_ISREG sb.mode → ie.hasFileOnDisk →
    ¬ie.LocalChange sb → ¬ie.xbitDiffers sb.mode
  root : ∀ sb, t.node ie.path = some sb → sb.isFile → ie.hasFileOnDisk → ¬ie.LocalChange sb →
    ¬t.OnlyWay [] ie.path

/-! ## The status of a file that is not staged -/

section Status

variable {host : Host} {ie : FileIndexEntry} {sb : Inode} {status : Status}

theorem stagedStatus_of_stage (h : ie.stage = .none) : ie.stagedStatus = .noChange := by
  rw [FileIndexEntry.stagedStatus, h]

/-- **The status of a file that is there.** -/
theorem getFileStatus_cases (hstage : ie.stage = .none) (hfile : sb.isFile)
    (hdisk : ie.hasFileOnDisk) (h : getFileStatus host ie (some sb) = .ok status) :
    (status = .add ∧ ¬ie.hasBlob) ∨
    (status = .noChange ∧ ie.hasBlob ∧ ¬ie.statInfoDiffers sb) ∨
    (ie.hasBlob ∧ ie.statInfoDiffers sb ∧ ie.LocalChange sb
      ∧ (status = .modify ∨ status = .conflict)) ∨
    (ie.hasBlob ∧ ie.statInfoDiffers sb ∧ ¬ie.LocalChange sb
      ∧ status = if S_ISREG sb.mode ∧ ie.xbitDiffers sb.mode then .modeChange else .noChange) := by
  have hstaged := stagedStatus_of_stage hstage
  unfold getFileStatus at h
  dsimp only at h
  rw [Inode.isFile, decide_eq_true_iff] at hfile
  rw [if_neg (by tauto), if_neg (not_not.mpr hdisk)] at h
  by_cases hblob : ie.hasBlob
  swap
  · rw [if_pos ⟨hblob, by rw [hstaged]; decide⟩] at h
    exact Or.inl ⟨(Except.ok.inj h).symm, hblob⟩
  rw [if_neg (fun h' => h'.1 hblob)] at h
  by_cases hstat : ie.statInfoDiffers sb
  swap
  · rw [if_pos hstat] at h
    exact Or.inr (Or.inl ⟨(Except.ok.inj h).symm, hblob, hstat⟩)
  rw [if_neg (not_not.mpr hstat)] at h
  by_cases htype : S_ISLNK sb.mode ∧ ie.filetype ≠ .symlink
  · rw [if_pos htype] at h
    exact Or.inr (Or.inr
      (Or.inl ⟨hblob, hstat, Or.inr (Or.inl htype), Or.inl (Except.ok.inj h).symm⟩))
  have hid : (if ie.stagedStatus = .modify ∨ ie.stagedStatus = .add then ie.stagedBlobSha1
      else ie.blobSha1) = ie.blobSha1 := by
    rw [hstaged]
    exact if_neg (by decide)
  rw [if_neg htype, hid] at h
  obtain ⟨content, hcontent, h⟩ := bind_eq_ok_iff.mp h
  obtain ⟨data, hdata, h⟩ := bind_eq_ok_iff.mp h
  have hdiffers : ie.contentDiffers sb = decide (data ≠ content) := by
    rw [FileIndexEntry.contentDiffers, hcontent, hdata]
  have hchange : ie.LocalChange sb ↔ data ≠ content := by
    rw [FileIndexEntry.LocalChange, hdiffers, decide_eq_true_iff]
    tauto
  rw [hchange]
  by_cases hlnk : S_ISLNK sb.mode
  · -- a symlink has no executable bit that counts
    rw [if_pos hlnk, getSymlinkModificationStatus] at h
    have hreg : ¬S_ISREG sb.mode := Inode.not_isReg_of_isLnk hlnk
    rw [if_neg (fun h' => hreg h'.1)]
    by_cases hlong : PATH_MAX ≤ host.hdrlen ie.blobSha1 + content.length
    · rw [if_pos hlong] at h
      cases h
    rw [if_neg hlong] at h
    obtain rfl := Except.ok.inj h
    by_cases hd : data ≠ content
    · rw [if_pos hd]
      exact Or.inr (Or.inr (Or.inl ⟨hblob, hstat, hd, Or.inl rfl⟩))
    · rw [if_neg hd]
      exact Or.inr (Or.inr (Or.inr ⟨hblob, hstat, hd, rfl⟩))
  · rw [if_neg hlnk] at h
    have hreg : S_ISREG sb.mode := hfile.resolve_right hlnk
    obtain rfl := Except.ok.inj h
    rw [getRegularFileStatus]
    by_cases hd : data ≠ content
    · rw [if_pos hd, getModifiedFileContentStatus]
      refine Or.inr (Or.inr (Or.inl ⟨hblob, hstat, hd, ?_⟩))
      split
      · exact Or.inr rfl
      · exact Or.inl rfl
    · rw [if_neg hd]
      refine Or.inr (Or.inr (Or.inr ⟨hblob, hstat, hd, ?_⟩))
      rw [if_congr (and_iff_right hreg).symm rfl rfl]

end Status

/-! ## What is done -/

section Cases

variable {σ : Type} {host : Host} {now : Timespec} {idStr : Bytes} {stackMode : UInt32}
  {progressCb : Status → RelPath → σ → Except GotErr σ} {t t' : DiskTree}
  {fileindex fileindex' : List FileIndexEntry} {ie : FileIndexEntry} {s s' : σ}

/-- **What `delete_blob` does**, by the status of the file. A symlink in any status but
one goes the first way. -/
theorem deleteBlob_cases (h : deleteBlob host now idStr stackMode progressCb t fileindex ie s
      = .ok (t', fileindex', s')) :
    ie.stage = .none ∧ ∃ status, getFileStatus host ie (t.node ie.path) = .ok status ∧
    ((status ≠ .noChange ∧ fileindex' = fileindex
        ∧ (∃ sb, t.node ie.path = some sb ∧ S_ISLNK sb.mode)
        ∧ ∃ sb, t'.node ie.path = some sb ∧ S_ISREG sb.mode) ∨
      ((∀ sb, t.node ie.path = some sb → S_ISLNK sb.mode → status = .noChange)
        ∧ (status = .modify ∨ status = .conflict ∨ status = .add) ∧ t' = t
        ∧ ∃ ie', ie.update (t.node ie.path) none none false = .ok ie'
          ∧ fileindex' = replaceEntry fileindex ie') ∨
      ((∀ sb, t.node ie.path = some sb → S_ISLNK sb.mode → status = .noChange)
        ∧ ¬(status = .modify ∨ status = .conflict ∨ status = .add)
        ∧ (if status = .noChange then t.removeOndiskFile ie.path else .ok t) = .ok t'
        ∧ fileindex' = gotFileindexEntryRemove fileindex ie)) := by
  unfold deleteBlob at h
  split at h
  · exact nomatch h
  rename_i hstaged
  have hstage : ie.stage = .none := by
    rw [FileIndexEntry.stagedStatus] at hstaged
    cases hs : ie.stage with
    | none => rfl
    | _ => exact absurd (by rw [hs]; decide) hstaged
  obtain ⟨ondisk, hondisk, h⟩ := bind_eq_ok_iff.mp h
  obtain rfl := DiskTree.lookup_eq_ok hondisk
  obtain ⟨status, hstatus, h⟩ := bind_eq_ok_iff.mp h
  refine ⟨hstage, status, hstatus, ?_⟩
  split at h
  · rename_i hlnk
    obtain ⟨target, htarget, h⟩ := bind_eq_ok_iff.mp h
    obtain ⟨sb, hsb, hnode⟩ := DiskTree.readlink_eq_ok htarget
    obtain ⟨t1, ht1, h⟩ := bind_eq_ok_iff.mp h
    obtain ⟨s1, -, h⟩ := bind_eq_ok_iff.mp h
    cases h
    exact Or.inl ⟨hlnk.2, rfl, ⟨sb, hsb, sb.isLnk_iff.mpr ⟨target, hnode⟩⟩,
      DiskTree.installSymlinkConflict_node ht1⟩
  · rename_i hlnk
    have hnot (sb : Inode) (hsb : t.node ie.path = some sb) (hs : S_ISLNK sb.mode) :
        status = .noChange := by
      by_contra hne
      rw [hsb] at hlnk
      exact hlnk ⟨hs, hne⟩
    split at h
    · rename_i hmodify
      obtain ⟨s1, -, h⟩ := bind_eq_ok_iff.mp h
      obtain ⟨ie', hie', h⟩ := bind_eq_ok_iff.mp h
      cases h
      exact Or.inr (Or.inl ⟨hnot, hmodify, rfl, ie', hie', rfl⟩)
    · rename_i hmodify
      obtain ⟨s1, -, h⟩ := bind_eq_ok_iff.mp h
      by_cases hno : status = .noChange
      · rw [if_pos hno] at h
        obtain ⟨t1, ht1, h⟩ := bind_eq_ok_iff.mp h
        cases h
        exact Or.inr (Or.inr ⟨hnot, hmodify, by rw [if_pos hno, ht1], rfl⟩)
      · rw [if_neg hno] at h
        cases h
        exact Or.inr (Or.inr ⟨hnot, hmodify, if_neg hno, rfl⟩)

end Cases

/-! ## When a deletion is applied -/

/-- Without a blob and a commit an entry becomes a scheduled addition. -/
theorem FileIndexEntry.scheduledAdd_of_update {ie ie' : FileIndexEntry} {sb : Inode}
    {updateTimestamps : Bool} (hstage : ie.stage = .none)
    (h : ie.update (some sb) none none updateTimestamps = .ok ie') :
    ie'.path = ie.path ∧ ie'.ScheduledAdd := by
  unfold FileIndexEntry.update at h
  dsimp only at h
  split at h
  · exact nomatch h
  · obtain rfl := Except.ok.inj h
    exact ⟨rfl, Bool.false_ne_true, Bool.false_ne_true, rfl, hstage⟩

section Applied

variable {t t' : DiskTree} {fileindex fileindex' : List FileIndexEntry} {ie : FileIndexEntry}
  {sb : Inode}

/-- Where a file is put in the place of a symlink, nothing that was asked for is done. -/
theorem not_deletionApplied_of_conflict {sb' : Inode} (hsb : t.node ie.path = some sb)
    (hlnk : S_ISLNK sb.mode) (hsb' : t'.node ie.path = some sb') (hreg : S_ISREG sb'.mode) :
    ¬DeletionApplied t t' fileindex' ie := by
  intro happlied
  have hfile : sb.isFile := decide_eq_true (Or.inr hlnk)
  have hne : t'.node ≠ t.node := by
    intro heq
    rw [heq, hsb, Option.some_inj] at hsb'
    exact Inode.not_isReg_of_isLnk hlnk (hsb' ▸ hreg)
  by_cases hdisk : ie.hasFileOnDisk
  · by_cases hlocal : ie.LocalChange sb
    · exact hne (happlied.kept sb hsb hfile hdisk hlocal).1
    · have hgone := (happlied.removed sb hsb hfile hdisk hlocal).1 ie.path
      have honly : t.OnlyWay ie.path ie.path :=
        FileTree.onlyWay_self hsb (decide_eq_false (Inode.not_dir_of_isFile hfile))
      rw [if_pos ⟨ie.path.property, List.prefix_rfl, honly⟩, hsb'] at hgone
      exact nomatch hgone
  · exact hne (happlied.lost (Or.inr ⟨sb, hsb, hfile, hdisk⟩)).1

/-- **A changed regular file is kept**, and its entry is one of a file to be added. -/
theorem deletionApplied_of_kept {ie' : FileIndexEntry} (hsb : t.node ie.path = some sb)
    (hdisk : ie.hasFileOnDisk) (hlocal : ie.LocalChange sb) (hstage : ie.stage = .none)
    (hget : gotFileindexEntryGet fileindex ie.path = some ie)
    (hupdate : ie.update (t.node ie.path) none none false = .ok ie') :
    DeletionApplied t t (replaceEntry fileindex ie') ie := by
  rw [hsb] at hupdate
  obtain ⟨hpath, hsched⟩ := FileIndexEntry.scheduledAdd_of_update hstage hupdate
  refine ⟨fun _ _ _ _ _ => ⟨rfl, ie', gotFileindexEntryGet_replace hpath hget, hsched⟩,
    fun sb' hsb' _ _ hnot => ?_, ?_, fun e he hpe => ?_⟩
  · rw [hsb, Option.some_inj] at hsb'
    exact absurd (hsb' ▸ hlocal) hnot
  · rintro (hnone | ⟨sb', -, -, hnot⟩)
    · exact absurd (hsb.symm.trans hnone) (Option.some_ne_none sb)
    · exact absurd hdisk hnot
  · rw [mem_replaceEntry he (hpe.trans hpath.symm)]
    exact hsched.1

/-- Nothing keeps its blob in an index from which the entry was removed. -/
theorem noBlob_remove : ∀ e ∈ gotFileindexEntryRemove fileindex ie, e.path = ie.path →
    ¬e.hasBlob := by
  intro e he hpath
  unfold gotFileindexEntryRemove at he
  rw [List.mem_filter, decide_eq_true_iff] at he
  exact absurd hpath he.2

/-- **A file that is to go is gone as it should be** unless the root is gone too. -/
theorem deletionApplied_removed_iff (hsb : t.node ie.path = some sb) (hfile : sb.isFile)
    (hdisk : ie.hasFileOnDisk) (hlocal : ¬ie.LocalChange sb)
    (hrem : ∀ q, t'.node q
      = if q <+: ie.path.val ∧ t.OnlyWay q ie.path then none else t.node q) :
    DeletionApplied t t' (gotFileindexEntryRemove fileindex ie) ie ↔ ¬t.OnlyWay [] ie.path := by
  constructor
  · intro happlied honly
    have hroot := (happlied.removed sb hsb hfile hdisk hlocal).1 []
    rw [if_neg (fun h => h.1 rfl), hrem [], if_pos ⟨List.nil_prefix, honly⟩] at hroot
    have hsome : (t.node []).isSome :=
      FileTree.node_isSome_of_append (l := ie.path.val) (by rw [List.nil_append, hsb]; rfl)
    rw [← hroot] at hsome
    exact nomatch hsome
  · intro hroot
    refine ⟨fun sb' hsb' _ _ hch => ?_, fun _ _ _ _ _ => ⟨fun q => ?_, ?_⟩, ?_, noBlob_remove⟩
    · rw [hsb, Option.some_inj] at hsb'
      exact absurd (hsb' ▸ hch) hlocal
    · rw [hrem q]
      by_cases hq : q = []
      · subst hq
        rw [if_neg (fun h => hroot h.2), if_neg (fun h => h.1 rfl)]
      · rw [if_congr (and_iff_right hq).symm rfl rfl]
    · exact gotFileindexEntryGet_remove fileindex ie
    · rintro (hnone | ⟨sb', -, -, hnot⟩)
      · exact absurd (hsb.symm.trans hnone) (Option.some_ne_none sb)
      · exact absurd hdisk hnot

/-- Only the entry is lost where no file is to be expected. -/
theorem deletionApplied_of_lost
    (h : ∀ sb, t.node ie.path = some sb → sb.isFile → ¬ie.hasFileOnDisk) :
    DeletionApplied t t (gotFileindexEntryRemove fileindex ie) ie :=
  ⟨fun sb hsb hfile hdisk _ => absurd hdisk (h sb hsb hfile),
    fun sb hsb hfile hdisk _ => absurd hdisk (h sb hsb hfile),
    fun _ => ⟨rfl, gotFileindexEntryGet_remove fileindex ie⟩, noBlob_remove⟩

/-- What has to be gone is not. -/
theorem not_deletionApplied_of_same (hsb : t.node ie.path = some sb) (hfile : sb.isFile)
    (hdisk : ie.hasFileOnDisk) (hlocal : ¬ie.LocalChange sb) :
    ¬DeletionApplied t t fileindex' ie := by
  intro happlied
  have hgone := (happlied.removed sb hsb hfile hdisk hlocal).1 ie.path
  rw [if_pos ⟨ie.path.property, List.prefix_rfl, FileTree.onlyWay_self hsb
    (decide_eq_false (Inode.not_dir_of_isFile hfile))⟩, hsb] at hgone
  exact nomatch hgone

/-- What has to be kept is gone. -/
theorem not_deletionApplied_of_removed (hsb : t.node ie.path = some sb) (hfile : sb.isFile)
    (hdisk : ie.hasFileOnDisk) (hlocal : ie.LocalChange sb)
    (hrem : ∀ q, t'.node q
      = if q <+: ie.path.val ∧ t.OnlyWay q ie.path then none else t.node q) :
    ¬DeletionApplied t t' fileindex' ie := by
  intro happlied
  have hgone := hrem ie.path
  rw [if_pos ⟨List.prefix_rfl, FileTree.onlyWay_self hsb
    (decide_eq_false (Inode.not_dir_of_isFile hfile))⟩,
    (happlied.kept sb hsb hfile hdisk hlocal).1, hsb] at hgone
  exact nomatch hgone

end Applied

section AppliedIff

variable {σ : Type} {host : Host} {now : Timespec} {idStr : Bytes} {stackMode : UInt32}
  {progressCb : Status → RelPath → σ → Except GotErr σ} {t t' : DiskTree}
  {fileindex fileindex' : List FileIndexEntry} {ie : FileIndexEntry} {s s' : σ}

/-- In what status a file is if it is neither there nor expected, or no file. -/
theorem getFileStatus_of_lost {status : Status}
    (h : ∀ sb, t.node ie.path = some sb → sb.isFile → ¬ie.hasFileOnDisk)
    (hstatus : getFileStatus host ie (t.node ie.path) = .ok status) :
    status = .missing ∨ status = .delete ∨ status = .obstructed := by
  unfold getFileStatus at hstatus
  cases hsb : t.node ie.path with
  | none =>
    rw [hsb] at hstatus
    obtain rfl := Except.ok.inj hstatus
    split
    · exact Or.inl rfl
    · exact Or.inr (Or.inl rfl)
  | some sb =>
    rw [hsb] at hstatus
    dsimp only at hstatus
    by_cases hfile : sb.isFile
    · have hdisk := h sb hsb hfile
      rw [Inode.isFile, decide_eq_true_iff] at hfile
      rw [if_neg (by tauto), if_pos hdisk] at hstatus
      exact Or.inr (Or.inl (Except.ok.inj hstatus).symm)
    · rw [Inode.isFile, decide_eq_true_iff, not_or] at hfile
      rw [if_pos hfile] at hstatus
      exact Or.inr (Or.inr (Except.ok.inj hstatus).symm)

/-- Where no file is to be expected only a symlink is in the way. -/
theorem deletionApplied_iff_of_lost
    (h : deleteBlob host now idStr stackMode progressCb t fileindex ie s
      = .ok (t', fileindex', s'))
    (hlost : ∀ sb, t.node ie.path = some sb → sb.isFile → ¬ie.hasFileOnDisk) :
    DeletionApplied t t' fileindex' ie ↔ DeletesCleanly t ie := by
  obtain ⟨-, status, hstatus, hcases⟩ := deleteBlob_cases h
  have hst := getFileStatus_of_lost hlost hstatus
  rcases hcases with ⟨-, rfl, ⟨sb, hsb, hlnk⟩, sb', hsb', hreg⟩ | ⟨-, hmodify, -⟩
    | ⟨hnot, -, ht', rfl⟩
  · exact iff_of_false (not_deletionApplied_of_conflict hsb hlnk hsb' hreg) fun hc =>
      hlost sb hsb (decide_eq_true (Or.inr hlnk)) (hc.symlink sb hsb hlnk).1
  · exact absurd hst (by rcases hmodify with rfl | rfl | rfl <;> decide)
  · have hne : status ≠ .noChange := by rcases hst with rfl | rfl | rfl <;> decide
    rw [if_neg hne] at ht'
    obtain rfl := Except.ok.inj ht'
    refine iff_of_true (deletionApplied_of_lost hlost)
      ⟨fun sb hsb hlnk => absurd (hnot sb hsb hlnk) hne, fun sb hsb hreg hdisk => ?_,
        fun sb hsb hreg hdisk => ?_, fun sb hsb hfile hdisk => ?_⟩
    · exact absurd hdisk (hlost sb hsb (decide_eq_true (Or.inl hreg)))
    · exact absurd hdisk (hlost sb hsb (decide_eq_true (Or.inl hreg)))
    · exact absurd hdisk (hlost sb hsb hfile)

/-- **Of a file that is taken away**, whatever its status was made of. -/
theorem deletionApplied_iff_of_noChange {sb : Inode} (hstage : ie.stage = .none)
    (hsb : t.node ie.path = some sb) (hfile : sb.isFile) (hdisk : ie.hasFileOnDisk)
    (hstatus : getFileStatus host ie (some sb) = .ok .noChange)
    (ht' : t.removeOndiskFile ie.path = .ok t') :
    DeletionApplied t t' (gotFileindexEntryRemove fileindex ie) ie ↔ DeletesCleanly t ie := by
  have hnode (sb' : Inode) (h : t.node ie.path = some sb') : sb' = sb :=
    (Option.some_inj.mp (hsb.symm.trans h)).symm
  obtain ⟨t1, ht1, hrem⟩ := DiskTree.removeOndiskFile_spec hsb (Inode.not_dir_of_isFile hfile)
  obtain rfl := Except.ok.inj (ht1.symm.trans ht')
  have hst : ie.hasBlob ∧ (¬ie.statInfoDiffers sb ∨
      ¬ie.LocalChange sb ∧ ¬(S_ISREG sb.mode ∧ ie.xbitDiffers sb.mode)) := by
    rcases getFileStatus_cases hstage hfile hdisk hstatus with ⟨h, -⟩ | ⟨-, hblob, hstat⟩
      | ⟨-, -, -, h | h⟩ | ⟨hblob, -, hlocal, h⟩
    · exact nomatch h
    · exact ⟨hblob, Or.inl hstat⟩
    · exact nomatch h
    · exact nomatch h
    · refine ⟨hblob, Or.inr ⟨hlocal, fun hx => ?_⟩⟩
      rw [if_pos hx] at h
      exact nomatch h
  by_cases hlocal : ie.LocalChange sb
  · refine iff_of_false (not_deletionApplied_of_removed hsb hfile hdisk hlocal hrem) fun hc => ?_
    rw [Inode.isFile, decide_eq_true_iff] at hfile
    rcases hfile with hreg | hlnk
    · exact hst.2.elim (fun h => h (hc.changed sb hsb hreg hdisk hst.1 hlocal))
        fun h => h.1 hlocal
    · exact (hc.symlink sb hsb hlnk).2 hlocal
  · rw [deletionApplied_removed_iff hsb hfile hdisk hlocal hrem]
    refine ⟨fun hroot => ⟨fun sb' hsb' _ => ?_, fun sb' hsb' _ _ _ hch => ?_,
      fun sb' hsb' hreg _ _ hx => ?_, fun _ _ _ _ _ => hroot⟩,
      fun hc => hc.root sb hsb hfile hdisk hlocal⟩
    · exact ⟨hdisk, hnode sb' hsb' ▸ hlocal⟩
    · exact absurd (hnode sb' hsb' ▸ hch) hlocal
    · rw [hnode sb' hsb'] at hreg hx
      refine hst.2.elim (fun h => h ?_) fun h => h.2 ⟨hreg, hx⟩
      rw [FileIndexEntry.statInfoDiffers, decide_eq_true_iff]
      exact fun hsame => hsame.2.2.2 hx

/-- **A deletion is applied exactly if** what is there is neither a changed symlink, nor
changed without a trace or in its executable bit only, and if the root is not left empty. -/
theorem deletionApplied_iff (hget : gotFileindexEntryGet fileindex ie.path = some ie)
    (h : deleteBlob host now idStr stackMode progressCb t fileindex ie s
      = .ok (t', fileindex', s')) :
    DeletionApplied t t' fileindex' ie ↔ DeletesCleanly t ie := by
  by_cases hlost : ∀ sb, t.node ie.path = some sb → sb.isFile → ¬ie.hasFileOnDisk
  · exact deletionApplied_iff_of_lost h hlost
  push Not at hlost
  obtain ⟨sb, hsb, hfile, hdisk⟩ := hlost
  have hnode (sb' : Inode) (h : t.node ie.path = some sb') : sb' = sb :=
    (Option.some_inj.mp (hsb.symm.trans h)).symm
  obtain ⟨hstage, status, hstatus, hcases⟩ := deleteBlob_cases h
  rw [hsb] at hstatus
  have hst := getFileStatus_cases hstage hfile hdisk hstatus
  rcases hcases with ⟨hne, rfl, ⟨sb', hsb', hlnk⟩, sb'', hsb'', hreg⟩
    | ⟨hnot, hmodify, rfl, ie', hupdate, rfl⟩ | ⟨hnot, hmodify, ht', rfl⟩
  · -- a symlink in conflict
    refine iff_of_false (not_deletionApplied_of_conflict hsb' hlnk hsb'' hreg) fun hc => ?_
    obtain ⟨-, hlocal⟩ := hc.symlink sb' hsb' hlnk
    rw [hnode sb' hsb'] at hlocal hlnk
    rcases hst with ⟨-, hblob⟩ | ⟨h, -⟩ | ⟨-, -, h, -⟩ | ⟨-, -, -, h⟩
    · exact hlocal (Or.inl hblob)
    · exact hne h
    · exact hlocal h
    · rw [if_neg (fun h => Inode.not_isReg_of_isLnk hlnk h.1)] at h
      exact hne h
  · -- a file that is kept
    have hne : status ≠ .noChange ∧ status ≠ .modeChange := by
      rcases hmodify with rfl | rfl | rfl <;> decide
    have hlocal : ie.LocalChange sb ∧ (ie.hasBlob → ie.statInfoDiffers sb) := by
      rcases hst with ⟨-, hblob⟩ | ⟨h, -⟩ | ⟨-, hstat, h, -⟩ | ⟨-, -, -, h⟩
      · exact ⟨Or.inl hblob, fun h => absurd h hblob⟩
      · exact absurd h hne.1
      · exact ⟨h, fun _ => hstat⟩
      · split at h
        · exact absurd h hne.2
        · exact absurd h hne.1
    refine iff_of_true (deletionApplied_of_kept hsb hdisk hlocal.1 hstage hget hupdate)
      ⟨fun sb' hsb' hlnk => absurd (hnot sb' hsb' hlnk) hne.1, fun sb' hsb' _ _ hblob _ => ?_,
        fun sb' hsb' _ _ hch => ?_, fun sb' hsb' _ _ hch => ?_⟩
    · exact hnode sb' hsb' ▸ hlocal.2 hblob
    · exact absurd hlocal.1 (hnode sb' hsb' ▸ hch)
    · exact absurd hlocal.1 (hnode sb' hsb' ▸ hch)
  · by_cases hno : status = .noChange
    · rw [if_pos hno] at ht'
      rw [hno] at hstatus
      exact deletionApplied_iff_of_noChange hstage hsb hfile hdisk hstatus ht'
    · -- only the executable bit was changed
      rw [if_neg hno] at ht'
      obtain rfl := Except.ok.inj ht'
      rcases hst with ⟨h, -⟩ | ⟨h, -⟩ | ⟨-, -, -, h⟩ | ⟨-, -, hlocal, h⟩
      · exact absurd (Or.inr (Or.inr h)) hmodify
      · exact absurd h hno
      · exact absurd (h.imp_right Or.inl) hmodify
      · refine iff_of_false (not_deletionApplied_of_same hsb hfile hdisk hlocal) fun hc => ?_
        split at h
        · rename_i hx
          exact hc.xbit sb hsb hx.1 hdisk hlocal hx.2
        · exact hno h

end AppliedIff

/-! ## A changed symlink -/

/-- A symlink `l`, and the directory `.got` of the work tree. -/
def linkName : Name := ⟨['l'], by decide, by decide⟩
def gotName : Name := ⟨['.', 'g', 'o', 't'], by decide, by decide⟩

/-- A symlink `l` that leads to `b`. -/
def changedLink : Inode := ⟨.symlink [0x62], 0o755, ⟨2, 0⟩, ⟨2, 0⟩, rwxPerms_and_fmt⟩

/-- A work tree with the symlink and the directory `.got`. -/
def linkTree : DiskTree :=
  let t : DiskTree := FileTree.ofRoot someDir
  let t := t.put [gotName] someDir ⟨_, rfl, rfl⟩ (by decide)
  t.put [linkName] changedLink ⟨_, rfl, rfl⟩ (by decide)

/-- The entry says that it leads to `a`. -/
def linkEntry : FileIndexEntry :=
  { path := ⟨[linkName], List.cons_ne_nil _ _⟩, filetype := .symlink, blobSha1 := .blob [0x61],
    size := 1 }

/-- **A symlink that was changed is not kept**: it is replaced, and its entry keeps
its blob. -/
theorem not_deletionApplied_changedLink :
    ∃ t' fileindex', deleteBlob someHost ⟨3, 0⟩ [] 0 (fun _ _ s => .ok s) linkTree [linkEntry]
        linkEntry () = .ok (t', fileindex', ())
      ∧ ¬DeletionApplied linkTree t' fileindex' linkEntry := by
  refine ⟨_, _, rfl, fun happlied => ?_⟩
  exact happlied.noBlob linkEntry (List.mem_singleton_self _) rfl rfl

/-- An entry of the symlink as it is. -/
def sameLinkEntry : FileIndexEntry := { linkEntry with blobSha1 := .blob [0x62] }

/-- A symlink that was not changed is taken away, and the work tree stays. -/
theorem deletionApplied_sameLink :
    ∃ t' fileindex', deleteBlob someHost ⟨3, 0⟩ [] 0 (fun _ _ s => .ok s) linkTree [sameLinkEntry]
        sameLinkEntry () = .ok (t', fileindex', ())
      ∧ DeletionApplied linkTree t' fileindex' sameLinkEntry := by
  have hnode (sb : Inode) (h : linkTree.node sameLinkEntry.path = some sb) : sb = changedLink :=
    (Option.some_inj.mp h).symm
  obtain ⟨t', fileindex', h⟩ : ∃ t' fileindex', deleteBlob someHost ⟨3, 0⟩ [] 0
      (fun _ _ s => .ok s) linkTree [sameLinkEntry] sameLinkEntry () = .ok (t', fileindex', ()) :=
    ⟨_, _, rfl⟩
  refine ⟨t', fileindex', h, (deletionApplied_iff rfl h).mpr ⟨fun sb hsb _ => ?_,
    fun sb hsb hreg => ?_, fun sb hsb hreg => ?_, fun _ _ _ _ _ => ?_⟩⟩
  · rw [hnode sb hsb]
    decide
  · rw [hnode sb hsb] at hreg
    exact absurd hreg (by decide)
  · rw [hnode sb hsb] at hreg
    exact absurd hreg (by decide)
  · decide

end Got

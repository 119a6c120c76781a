import Got.Worktree.Stage

/-!
# Unstaging undoes staging

If nothing was edited in between, the blob that was staged is what is on disk, and so the merge
by which it is unstaged should not change anything.

It does not as long as the entry is of the type of the file. But where a symlink was put in the
place of a file, a file takes its place, with what the symlink leads to merged into it; and
where a file was put in the place of a symlink it is taken for one, and the command fails
(`restored_iff`). A deletion is taken out of the entry without a merge.
-/

namespace Got

/-! ## What is unstaged -/

section Unstage

variable {σ : Type} {host : Host} {now : Timespec} {followed : RelPath → Except GotErr Bytes}
  {idStr : CommitId → IdStr} {wt : Checkout} {t : DiskTree} {id : IdStr}
  {progressCb : Status → RelPath → σ → Except GotErr σ} {st st1 st2 : WorkingCopy σ}
  {ie ie1 ie' : FileIndexEntry} {status : Status} {sb : Inode} {content target : Bytes}

/-- The mode of an entry is that of a symlink if its type is not that of a file. -/
theorem isLnk_permsToSt :
    S_ISLNK ie.permsToSt ↔ ¬(ie.filetype = .regularFile ∨ ie.filetype = .badSymlink) := by
  have hperms (fmt : UInt32) : (fmt ||| ie.perms &&& S_IRWX) &&& S_IFMT = fmt &&& S_IFMT := by
    have h : (fmt ||| ie.perms &&& S_IRWX) &&& S_IFMT
        = (fmt &&& S_IFMT) ||| (ie.perms &&& S_IRWX &&& S_IFMT) :=
      UInt32.toBitVec_inj.mp BitVec.and_or_distrib_right
    rw [h, UInt32.and_assoc, show S_IRWX &&& S_IFMT = 0 from rfl, UInt32.and_zero, UInt32.or_zero]
  unfold S_ISLNK FileIndexEntry.permsToSt
  rw [decide_eq_true_iff, hperms]
  by_cases htype : ie.filetype = .regularFile ∨ ie.filetype = .badSymlink
  · rw [if_pos htype]
    exact ⟨fun h => absurd h (by decide), fun h => absurd htype h⟩
  · rw [if_neg htype]
    exact ⟨fun _ => htype, fun _ => by decide⟩

/-- The status does not depend on what was staged of a file. -/
theorem getFileStatus_congr_staged {blob : Object} {filetype : FileIdxMode} {ondisk : Option Inode}
    (hstage : ie.stage = .none) :
    getFileStatus host
      { ie with stagedBlobSha1 := blob, stage := .none, stagedFiletype := filetype } ondisk
      = getFileStatus host ie ondisk := by
  cases ie
  cases hstage
  rfl

/-- An entry without a file on disk has the status of any other one. -/
theorem getFileStatus_congr_deleted {ondisk : Option Inode} (hdisk : ¬ie.hasFileOnDisk)
    (hdisk' : ¬ie'.hasFileOnDisk) :
    getFileStatus host ie ondisk = getFileStatus host ie' ondisk := by
  unfold getFileStatus
  cases ondisk with
  | none =>
    dsimp only
    rw [if_neg hdisk, if_neg hdisk']
  | some sb =>
    dsimp only
    rw [if_pos hdisk, if_pos hdisk']

/-- **A file is deleted** only if there should be none. -/
theorem not_hasFileOnDisk_of_delete {ondisk : Option Inode} (hstage : ie.stage = .none)
    (h : getFileStatus host ie ondisk = .ok .delete) : ¬ie.hasFileOnDisk := by
  intro hdisk
  cases ondisk with
  | none =>
    unfold getFileStatus at h
    dsimp only at h
    rw [if_pos hdisk] at h
    cases h
  | some sb =>
    by_cases hfile : sb.isFile
    · rcases getFileStatus_cases hstage hfile hdisk h with h | h | h | h
      · cases h.1
      · cases h.1
      · exact h.2.2.2.elim (fun h => (by cases h)) fun h => (by cases h)
      · have hd := h.2.2.2
        split at hd
        · cases hd
        · cases hd
    · rw [Inode.isFile, decide_eq_true_iff, not_or] at hfile
      unfold getFileStatus at h
      dsimp only at h
      rw [if_pos hfile] at h
      cases h

/-- What was added or modified is a file, and should be there. -/
theorem isFile_of_changed (hchanged : status = .add ∨ status = .modify)
    (h : getFileStatus host ie (some sb) = .ok status) : sb.isFile ∧ ie.hasFileOnDisk := by
  by_cases hdisk : ie.hasFileOnDisk
  swap
  · rcases getFileStatus_eq_delete hdisk h with rfl | rfl
    · exact absurd hchanged (by decide)
    · exact absurd hchanged (by decide)
  refine ⟨?_, hdisk⟩
  rw [Inode.isFile, decide_eq_true_iff]
  refine by_contra fun hfile => ?_
  unfold getFileStatus at h
  dsimp only at h
  rw [if_pos (not_or.mp hfile)] at h
  cases h
  exact absurd hchanged (by decide)

/-- What is reported of a staged file is what `unstage_path` is called with. -/
theorem gotWorktreeUnstage_file (hstage : ie.stage ≠ .none)
    (hget : gotFileindexEntryGet st.fileindex ie.path = some ie)
    (hdir : ∀ sb, st.tree.node ie.path = some sb → sb.node ≠ .dir) :
    gotWorktreeUnstage host now followed idStr wt progressCb [ie.path] st
      = getFileStatus host ie (st.tree.node ie.path) >>= fun status =>
          unstagePath host now followed idStr wt progressCb status ie.stagedStatus ie.path
            ie.baseBlob (if ie.stagedStatus = .add ∨ ie.stagedStatus = .modify
              then some ie.stagedBlobSha1 else none) ie.baseCommit st := by
  have hne (status : Status) : ¬(status = .noChange ∧ ie.stagedStatus = .noChange) :=
    fun h => hstage (stagedStatus_eq_noChange_iff.mp h.2)
  unfold gotWorktreeUnstage
  rw [List.foldlM_cons, worktreeStatus_file hget hdir, reportFileStatus]
  refine (bind_pure _).trans (congrArg _ (funext fun status => ?_))
  rw [if_neg (hne status)]
  rfl

end Unstage

/-! ## Back again -/

section Back

variable {σ : Type} {host : Host} {now : Timespec} {followed : RelPath → Except GotErr Bytes}
  {idStr : CommitId → IdStr} {wt : Checkout} {t : DiskTree} {id : IdStr} {s : σ}
  {progressCb : Status → RelPath → σ → Except GotErr σ} {st st1 st2 : WorkingCopy σ}
  {ie ie1 ie' : FileIndexEntry} {status : Status} {sb : Inode} {content target : Bytes}
  {blobBase : Option (Object × Bytes)} {path : RelPath}

/-- **What `got_worktree_unstage` does** with a file that is there and of which the content was
staged: its status is found out, the base blob is read, and what was staged is merged. -/
theorem gotWorktreeUnstage_content (hstaged : ie.stagedStatus = .add ∨ ie.stagedStatus = .modify)
    (hget : gotFileindexEntryGet st.fileindex ie.path = some ie)
    (hsb : st.tree.node ie.path = some sb) (hfile : sb.isFile)
    (hcontent : gotObjectOpenAsBlob ie.stagedBlobSha1 = .ok content) :
    gotWorktreeUnstage host now followed idStr wt progressCb [ie.path] st = .ok st2 ↔
    (∃ report, getFileStatus host ie (some sb) = .ok report) ∧
      ∃ blobBase t s, unstageBase ie.stagedStatus ie.baseBlob = .ok blobBase
        ∧ mergeStaged host now followed progressCb st ie ie.path blobBase ie.stagedBlobSha1 content
          (idStr (ie.baseCommit.getD (some wt.baseCommitId))) = .ok (t, s)
        ∧ st2 = ⟨t, replaceEntry st.fileindex ie.unstaged, s⟩ := by
  have hdir (sb' : Inode) (hsb' : st.tree.node ie.path = some sb') : sb'.node ≠ .dir := by
    obtain rfl := Option.some_inj.mp (hsb.symm.trans hsb')
    exact Inode.not_dir_of_isFile hfile
  have hstage : ie.stage ≠ .none := fun h => by
    rw [stagedStatus_of_stage h] at hstaged
    exact absurd hstaged (by decide)
  refine (Eq.congr_left (gotWorktreeUnstage_file hstage hget hdir)).trans ?_
  rw [hsb, bind_eq_ok_iff, ← exists_and_right, if_pos hstaged]
  refine exists_congr fun report => and_congr_right fun _ => ?_
  have hunfold : unstagePath host now followed idStr wt progressCb report ie.stagedStatus ie.path
      ie.baseBlob (some ie.stagedBlobSha1) ie.baseCommit st
      = unstageBase ie.stagedStatus ie.baseBlob >>= fun blobBase =>
        mergeStaged host now followed progressCb st ie ie.path blobBase ie.stagedBlobSha1 content
          (idStr (ie.baseCommit.getD (some wt.baseCommitId))) >>= fun r =>
          .ok ⟨r.1, replaceEntry st.fileindex ie.unstaged, r.2⟩ := by
    unfold unstagePath
    rcases hstaged with hadd | hmodify
    · rw [hadd]
      dsimp only
      rw [hget]
      refine congrArg (unstageBase _ ie.baseBlob >>= ·) (funext fun blobBase => ?_)
      rw [deref, ok_bind, hcontent, ok_bind]
      rfl
    · rw [hmodify]
      dsimp only
      rw [hget]
      refine congrArg (unstageBase _ ie.baseBlob >>= ·) (funext fun blobBase => ?_)
      rw [deref, ok_bind, hcontent, ok_bind]
      rfl
  rw [hunfold]
  constructor
  · intro h
    obtain ⟨blobBase, hbase, h⟩ := bind_eq_ok_iff.mp h
    obtain ⟨⟨t, s⟩, hmerge, h⟩ := bind_eq_ok_iff.mp h
    exact ⟨blobBase, t, s, hbase, hmerge, (Except.ok.inj h).symm⟩
  · rintro ⟨blobBase, t, s, hbase, hmerge, rfl⟩
    rw [hbase, ok_bind, hmerge, ok_bind]

/-- A file is merged as one if its entry is one of a file. -/
theorem mergeStaged_file (hcb : ∀ status path s, ∃ s', progressCb status path s = .ok s')
    (hsb : st.tree.node path = some sb) (hnode : sb.node = .file content)
    (hstaged : ie.stagedFiletype = .regularFile)
    (htype : ie.filetype = .regularFile ∨ ie.filetype = .badSymlink) :
    ∃ t s, mergeStaged host now followed progressCb st ie path blobBase (.blob content) content id
        = .ok (t, s)
      ∧ t.node path = some (mergedFile now ie.permsToSt content) := by
  obtain ⟨t, s, hmerge, ht⟩ := mergeBlob_self hcb hsb hnode fun h => isLnk_permsToSt.mp h htype
  refine ⟨t, s, ?_, ht⟩
  unfold mergeStaged
  rw [hstaged]
  exact bind_eq_ok_iff.mpr ⟨(true, t, s), hmerge, rfl⟩

/-- **A file in the place of a symlink** is taken for one. -/
theorem mergeStaged_error (hsb : st.tree.node path = some sb) (hnode : sb.node = .file content)
    (hstaged : ie.stagedFiletype = .regularFile)
    (htype : ¬(ie.filetype = .regularFile ∨ ie.filetype = .badSymlink)) :
    mergeStaged host now followed progressCb st ie path blobBase (.blob content) content id
      = .error (.errno .inval) := by
  unfold mergeStaged
  rw [hstaged]
  dsimp only
  rw [mergeBlob_error hsb hnode (isLnk_permsToSt.mpr htype), error_bind]

/-- **A symlink in the place of a file** is replaced by one. -/
theorem mergeStaged_isReg (hstaged : ie.stagedFiletype = .symlink)
    (htype : ie.filetype = .regularFile ∨ ie.filetype = .badSymlink)
    (h : mergeStaged host now followed progressCb st ie path blobBase (.blob content) content id
      = .ok (t, s)) :
    ∃ merged, t.node path = some (mergedFile now ie.permsToSt merged) := by
  unfold mergeStaged at h
  rw [hstaged] at h
  dsimp only at h
  rw [if_neg fun h => isLnk_permsToSt.mp h htype] at h
  obtain ⟨⟨subsumed, t', s'⟩, hmerge, h⟩ := bind_eq_ok_iff.mp h
  cases h
  exact mergeFile_node hmerge

/-- With the entry of a symlink, and the target on disk, symlinks are merged. -/
theorem mergeStaged_link (htarget : LinkTarget target) (hstaged : ie.stagedFiletype = .symlink)
    (htype : ¬(ie.filetype = .regularFile ∨ ie.filetype = .badSymlink)) :
    mergeStaged host now followed progressCb st ie path blobBase (.blob target) target id
      = mergeSymlink host now progressCb st.tree blobBase path (baseLabel id) target id st.arg := by
  have hread : gotObjectBlobReadToStr host (.blob target) target = .ok target := by
    have hpos : ¬host.hdrlen (.blob target) + target.length = 0 := fun h =>
      htarget.1 (List.length_eq_zero_iff.mp (Nat.add_eq_zero_iff.mp h).2)
    unfold gotObjectBlobReadToStr
    rw [if_neg hpos, (takeWhile_eq_self_iff_zero target).mpr htarget.2.1]
  unfold mergeStaged
  rw [hstaged]
  dsimp only
  rw [if_pos (isLnk_permsToSt.mpr htype), hread, ok_bind]

/-- The base of a symlink that is merged is read first. -/
theorem ancestorTarget_of_mergeSymlink {labelOrig derivTarget : Bytes} {arg : σ}
    (h : mergeSymlink host now progressCb st.tree blobBase path labelOrig derivTarget id arg
      = .ok (t, s)) : ∃ ancestor, ancestorTarget host blobBase = .ok ancestor := by
  unfold mergeSymlink at h
  obtain ⟨target, -, h⟩ := bind_eq_ok_iff.mp h
  obtain ⟨ancestor, hancestor, -⟩ := bind_eq_ok_iff.mp h
  exact ⟨ancestor, hancestor⟩

end Back

/-! ## When a file is restored -/

section Restored

variable {σ : Type} {host : Host} {now : Timespec} {followed : RelPath → Except GotErr Bytes}
  {idStr : CommitId → IdStr} {wt : Checkout} {headCommitId : Commit} {allowBadSymlinks : Bool}
  {statusCb : Status → Status → RelPath → Option Object → Option Object → σ → Except GotErr σ}
  {progressCb : Status → RelPath → σ → Except GotErr σ} {st st1 : WorkingCopy σ}
  {ie : FileIndexEntry} {status : Status} {sb : Inode} {content target : Bytes}

/-- An entry that is not staged any more has what it had, apart from what was staged. -/
theorem restored_iff_node {blob : Object} {filetype : FileIdxMode} {before after : Option Inode}
    (hstage : ie.stage = .none) :
    Restored host ie { ie with stagedBlobSha1 := blob, stage := .none, stagedFiletype := filetype }
      before after ↔
    after.map Inode.node = before.map Inode.node
      ∧ getFileStatus host ie after = getFileStatus host ie before := by
  constructor
  · intro h
    exact ⟨h.node, (getFileStatus_congr_staged hstage).symm.trans h.status⟩
  · rintro ⟨hnode, hstatus⟩
    exact ⟨hnode, rfl, rfl, hstage.symm, (getFileStatus_congr_staged hstage).trans hstatus⟩

/-- A merged file is known again by `lstat` if it has the same times and the same size. -/
theorem statInfoDiffers_mergedFile (hnode : sb.node = .file content) :
    ie.statInfoDiffers (mergedFile now ie.permsToSt content) ↔
      ¬(ie.ctim = now ∧ ie.mtim = now ∧ ie.size = sb.size) := by
  have hsize : (mergedFile now ie.permsToSt content).size = sb.size := by
    unfold Inode.size
    rw [hnode]
    rfl
  have hxbit : ¬ie.xbitDiffers (mergedFile now ie.permsToSt content).mode := by
    rw [FileIndexEntry.xbitDiffers, decide_eq_true_iff, not_not]
    show ie.permsToSt &&& S_IXUSR = (S_IFREG ||| ie.permsToSt &&& ALLPERMS) &&& S_IXUSR
    rw [or_and_S_IXUSR, show S_IFREG &&& S_IXUSR = 0 from rfl, UInt32.zero_or, UInt32.and_assoc,
      show ALLPERMS &&& S_IXUSR = S_IXUSR from rfl]
  rw [FileIndexEntry.statInfoDiffers, decide_eq_true_iff, hsize]
  exact not_congr ⟨fun h => ⟨h.1, h.2.1, h.2.2.1⟩, fun h => ⟨h.1, h.2.1, h.2.2, hxbit⟩⟩

/-- What was modified has a blob, and does not look like what was recorded; what was added has
none. -/
theorem hasBlob_of_changed (hchanged : status = .add ∨ status = .modify) (hstage : ie.stage = .none)
    (hstatus : getFileStatus host ie (some sb) = .ok status) :
    (status = .add ∧ ¬ie.hasBlob) ∨ (status = .modify ∧ ie.hasBlob ∧ ie.statInfoDiffers sb) := by
  obtain ⟨hfile, hdisk⟩ := isFile_of_changed hchanged hstatus
  rcases getFileStatus_cases hstage hfile hdisk hstatus with h | h | ⟨hblob, hdiffers, -, h⟩ | h
  · exact Or.inl h
  · rw [h.1] at hchanged
    exact absurd hchanged (by decide)
  · refine Or.inr ⟨h.resolve_right fun hconflict => ?_, hblob, hdiffers⟩
    rw [hconflict] at hchanged
    exact absurd hchanged (by decide)
  · have hkept := h.2.2.2
    split at hkept
    · rw [hkept] at hchanged
      exact absurd hchanged (by decide)
    · rw [hkept] at hchanged
      exact absurd hchanged (by decide)

/-- The content of a modified file was compared with its blob. -/
theorem ne_base_of_modify (hstage : ie.stage = .none) (hnode : sb.node = .file content)
    (hstatus : getFileStatus host ie (some sb) = .ok .modify) :
    ∃ base, gotObjectOpenAsBlob ie.statusBlob = .ok base ∧ content ≠ base
      ∧ getModifiedFileContentStatus content = .modify := by
  obtain ⟨-, hdisk⟩ := isFile_of_changed (Or.inr rfl) hstatus
  obtain ⟨h, -⟩ | ⟨-, hblob, hdiffers⟩ := hasBlob_of_changed (Or.inr rfl) hstage hstatus
  · cases h
  rw [getFileStatus_file hnode hdisk (Or.inl hblob), if_neg (not_not.mpr hdiffers)] at hstatus
  obtain ⟨base, hbase, hregular⟩ := bind_eq_ok_iff.mp hstatus
  replace hregular := Except.ok.inj hregular
  have hne : content ≠ base := by
    rintro rfl
    rw [getRegularFileStatus, if_neg (not_not.mpr rfl)] at hregular
    split at hregular
    · cases hregular
    · cases hregular
  rw [getRegularFileStatus, if_pos hne] at hregular
  exact ⟨base, hbase, hne, hregular⟩

/-- **The status of a merged file** is what it was, unless it is taken for unchanged. -/
theorem getFileStatus_mergedFile (hchanged : status = .add ∨ status = .modify)
    (hstage : ie.stage = .none) (hnode : sb.node = .file content)
    (hstatus : getFileStatus host ie (some sb) = .ok status) :
    getFileStatus host ie (some (mergedFile now ie.permsToSt content)) = .ok status ↔
      (status = .modify → ¬(ie.ctim = now ∧ ie.mtim = now ∧ ie.size = sb.size)) := by
  obtain ⟨-, hdisk⟩ := isFile_of_changed hchanged hstatus
  have hmerged : (mergedFile now ie.permsToSt content).isFile := by
    rw [Inode.isFile, decide_eq_true_iff]
    exact Or.inl (mergedFile_isReg now ie.permsToSt content)
  obtain ⟨rfl, hblob⟩ | ⟨rfl, hblob, -⟩ := hasBlob_of_changed hchanged hstage hstatus
  · rw [getFileStatus_added hmerged hdisk hblob hstage]
    exact ⟨fun _ h => (by cases h), fun _ => rfl⟩
  rw [@getFileStatus_file _ _ _ content rfl hdisk (Or.inl hblob),
    ← statInfoDiffers_mergedFile hnode]
  by_cases hmerge : ie.statInfoDiffers (mergedFile now ie.permsToSt content)
  swap
  · rw [if_pos hmerge]
    exact ⟨fun h => (by cases h), fun h => absurd (h rfl) hmerge⟩
  -- the content is compared again, and differs as before
  obtain ⟨base, hbase, hne, hmodify⟩ := ne_base_of_modify hstage hnode hstatus
  rw [if_neg (not_not.mpr hmerge), hbase, ok_bind, getRegularFileStatus, if_pos hne, hmodify]
  exact ⟨fun _ _ => hmerge, fun _ => rfl⟩

theorem hasBlob_stagedWith
    (h : (status = .add ∧ ¬ie.hasBlob) ∨ (status = .modify ∧ ie.hasBlob ∧ ie.statInfoDiffers sb)) :
    (ie.stagedWith status sb content).hasBlob ∨ (ie.stagedWith status sb content).stage = .add :=
  h.symm.imp (fun h => h.2.1) fun h => if_pos h.1

/-- A staged file is compared with what was staged. -/
theorem statusBlob_stagedWith (hchanged : status = .add ∨ status = .modify) :
    (ie.stagedWith status sb content).statusBlob = .blob content := by
  rcases hchanged with rfl | rfl <;> rfl

/-- The status of a staged symlink is reported if there is room for the header of its blob. -/
theorem exists_getFileStatus_link (hnode : sb.node = .symlink target) (hdisk : ie.hasFileOnDisk)
    (hblob : ie.hasBlob ∨ ie.stage = .add) (hstaged : ie.statusBlob = .blob target) :
    (∃ report, getFileStatus host ie (some sb) = .ok report) ↔
      (ie.filetype = .symlink → ie.statInfoDiffers sb →
        host.hdrlen (.blob target) + target.length < PATH_MAX) := by
  rw [getFileStatus_symlink hnode hdisk hblob, hstaged]
  by_cases hdiffers : ie.statInfoDiffers sb
  swap
  · rw [if_pos hdiffers]
    exact ⟨fun _ _ h => absurd h hdiffers, fun _ => ⟨_, rfl⟩⟩
  rw [if_neg (not_not.mpr hdiffers)]
  by_cases htype : ie.filetype = .symlink
  swap
  · rw [if_pos htype]
    exact ⟨fun _ h => absurd h htype, fun _ => ⟨_, rfl⟩⟩
  rw [if_neg (not_not.mpr htype), gotObjectOpenAsBlob, ok_bind, getSymlinkModificationStatus]
  by_cases hlong : PATH_MAX ≤ host.hdrlen (.blob target) + target.length
  · rw [if_pos hlong]
    refine ⟨?_, fun h => absurd (h htype hdiffers) (not_lt.mpr hlong)⟩
    rintro ⟨report, h⟩
    cases h
  · rw [if_neg hlong]
    exact ⟨fun _ _ _ => not_le.mp hlong, fun _ => ⟨_, rfl⟩⟩

/-- The base of a symlink can be read if it is not needed, or there is something to read. -/
theorem exists_ancestorTarget (hchanged : status = .add ∨ status = .modify)
    (hblob : status = .modify → ie.hasBlob) :
    (∃ blobBase, unstageBase status ie.baseBlob = .ok blobBase
      ∧ ∃ ancestor, ancestorTarget host blobBase = .ok ancestor) ↔
    (status = .modify → ∃ content, gotObjectOpenAsBlob ie.blobSha1 = .ok content
      ∧ 0 < host.hdrlen ie.blobSha1 + content.length) := by
  rcases hchanged with rfl | rfl
  · exact ⟨fun _ h => (nomatch h), fun _ => ⟨none, rfl, none, rfl⟩⟩
  have hbase : unstageBase .modify ie.baseBlob = gotObjectOpenAsBlob ie.blobSha1 >>= fun content =>
      .ok (some (ie.blobSha1, content)) := by
    unfold unstageBase FileIndexEntry.baseBlob
    rw [if_pos rfl, if_pos (hblob rfl), deref, ok_bind]
    rfl
  rw [hbase]
  constructor
  · rintro ⟨blobBase, h, ancestor, hancestor⟩ -
    obtain ⟨content, hcontent, h⟩ := bind_eq_ok_iff.mp h
    cases h
    obtain ⟨target, htarget, -⟩ := bind_eq_ok_iff.mp hancestor
    unfold gotObjectBlobReadToStr at htarget
    split at htarget
    · exact nomatch htarget
    · rename_i hne
      exact ⟨content, hcontent, Nat.pos_of_ne_zero hne⟩
  · intro h
    obtain ⟨content, hcontent, hpos⟩ := h rfl
    refine ⟨some (ie.blobSha1, content), ?_, some (content.takeWhile (· ≠ 0)), ?_⟩
    · rw [hcontent, ok_bind]
    · unfold ancestorTarget gotObjectBlobReadToStr
      dsimp only
      rw [if_neg hpos.ne', ok_bind]
      rfl

/-- What is asked for of a file of which the content was staged, step by step. -/
theorem exists_restored_iff (hchanged : status = .add ∨ status = .modify)
    (hstage : ie.stage = .none) (hstatus : getFileStatus host ie (some sb) = .ok status)
    (hsb : st1.tree.node ie.path = some sb)
    (hget : gotFileindexEntryGet st1.fileindex ie.path = some (ie.stagedWith status sb content)) :
    (∃ st2 ie', gotWorktreeUnstage host now followed idStr wt progressCb [ie.path] st1 = .ok st2
      ∧ gotFileindexEntryGet st2.fileindex ie.path = some ie'
      ∧ Restored host ie ie' (some sb) (st2.tree.node ie.path)) ↔
    (∃ report, getFileStatus host (ie.stagedWith status sb content) (some sb) = .ok report) ∧
      ∃ blobBase t s, unstageBase status ie.baseBlob = .ok blobBase
        ∧ mergeStaged host now followed progressCb st1 (ie.stagedWith status sb content) ie.path
          blobBase (.blob content) content (idStr (ie.baseCommit.getD (some wt.baseCommitId)))
          = .ok (t, s)
        ∧ (t.node ie.path).map Inode.node = some sb.node
        ∧ getFileStatus host ie (t.node ie.path) = .ok status := by
  have hstaged : (ie.stagedWith status sb content).stagedStatus = status := by
    rcases hchanged with rfl | rfl <;> rfl
  have hchanged' : (ie.stagedWith status sb content).stagedStatus = .add
      ∨ (ie.stagedWith status sb content).stagedStatus = .modify := by
    rw [hstaged]
    exact hchanged
  have hfile := (isFile_of_changed hchanged hstatus).1
  have hfound (fileindex : List FileIndexEntry)
      (h : gotFileindexEntryGet fileindex ie.path = some (ie.stagedWith status sb content)) :
      gotFileindexEntryGet
        (replaceEntry fileindex (ie.stagedWith status sb content).unstaged) ie.path
        = some (ie.stagedWith status sb content).unstaged :=
    @gotFileindexEntryGet_replace fileindex (ie.stagedWith status sb content) _ rfl h
  constructor
  · rintro ⟨st2, ie', hrun, hget', hrestored⟩
    obtain ⟨hreport, blobBase, t, s, hbase, hmerge, rfl⟩ :=
      (gotWorktreeUnstage_content hchanged' hget hsb hfile rfl).mp hrun
    obtain rfl := Option.some_inj.mp (hget'.symm.trans (hfound st1.fileindex hget))
    obtain ⟨hnode, hsame⟩ := (restored_iff_node hstage).mp hrestored
    rw [hstaged] at hbase
    exact ⟨hreport, blobBase, t, s, hbase, hmerge, hnode, hsame.trans hstatus⟩
  · rintro ⟨hreport, blobBase, t, s, hbase, hmerge, hnode, hsame⟩
    rw [← hstaged] at hbase
    refine ⟨_, _, (gotWorktreeUnstage_content hchanged' hget hsb hfile rfl).mpr
      ⟨hreport, blobBase, t, s, hbase, hmerge, rfl⟩, hfound st1.fileindex hget, ?_⟩
    exact (restored_iff_node hstage).mpr ⟨hnode, hsame.trans hstatus.symm⟩

/-- **A file that was staged is restored exactly if** its entry is one of a file, and it is not
taken for the one the entry is from. -/
theorem restored_file_iff (hcb : ∀ status path s, ∃ s', progressCb status path s = .ok s')
    (hchanged : status = .add ∨ status = .modify) (hstage : ie.stage = .none)
    (hnode : sb.node = .file content) (hstatus : getFileStatus host ie (some sb) = .ok status)
    (hsb : st1.tree.node ie.path = some sb)
    (hget : gotFileindexEntryGet st1.fileindex ie.path = some (ie.stagedWith status sb content)) :
    (∃ st2 ie', gotWorktreeUnstage host now followed idStr wt progressCb [ie.path] st1 = .ok st2
      ∧ gotFileindexEntryGet st2.fileindex ie.path = some ie'
      ∧ Restored host ie ie' (some sb) (st2.tree.node ie.path)) ↔
    (ie.filetype = .regularFile ∨ ie.filetype = .badSymlink)
      ∧ (status = .modify → ¬(ie.ctim = now ∧ ie.mtim = now ∧ ie.size = sb.size)) := by
  have hlnk : ¬S_ISLNK sb.mode := fun h =>
    Inode.not_isReg_of_isLnk h (sb.isReg_iff.mpr ⟨content, hnode⟩)
  have htype : (ie.stagedWith status sb content).stagedFiletype = .regularFile := if_neg hlnk
  have hmerge (hreg : ie.filetype = .regularFile ∨ ie.filetype = .badSymlink)
      (blobBase : Option (Object × Bytes)) :
      ∃ t s, mergeStaged host now followed progressCb st1 (ie.stagedWith status sb content) ie.path
        blobBase (.blob content) content (idStr (ie.baseCommit.getD (some wt.baseCommitId)))
        = .ok (t, s) ∧ t.node ie.path = some (mergedFile now ie.permsToSt content) :=
    mergeStaged_file hcb hsb hnode htype hreg
  obtain ⟨-, hdisk⟩ := isFile_of_changed hchanged hstatus
  have hblob := hasBlob_of_changed hchanged hstage hstatus
  have hdisk' : (ie.stagedWith status sb content).hasFileOnDisk := hdisk
  have hblob' : (ie.stagedWith status sb content).hasBlob
      ∨ (ie.stagedWith status sb content).stage = .add :=
    hasBlob_stagedWith hblob
  rw [exists_restored_iff hchanged hstage hstatus hsb hget]
  constructor
  · rintro ⟨-, blobBase, t, s, -, h, -, hsame⟩
    by_cases hreg : ie.filetype = .regularFile ∨ ie.filetype = .badSymlink
    swap
    · exact nomatch (mergeStaged_error hsb hnode htype hreg).symm.trans h
    obtain ⟨t', s', h', ht'⟩ := hmerge hreg blobBase
    cases h.symm.trans h'
    rw [ht'] at hsame
    exact ⟨hreg, (getFileStatus_mergedFile hchanged hstage hnode hstatus).mp hsame⟩
  · rintro ⟨hreg, hracy⟩
    obtain ⟨blobBase, hbase⟩ : ∃ blobBase, unstageBase status ie.baseBlob = .ok blobBase := by
      obtain ⟨rfl, -⟩ | ⟨rfl, hblob, -⟩ := hblob
      · exact ⟨none, rfl⟩
      · obtain ⟨base, hbase, -⟩ := ne_base_of_modify hstage hnode hstatus
        rw [FileIndexEntry.statusBlob, stagedStatus_of_stage hstage, if_neg (by decide)] at hbase
        refine ⟨some (ie.blobSha1, base), ?_⟩
        unfold unstageBase FileIndexEntry.baseBlob
        rw [if_pos rfl, if_pos hblob, deref, ok_bind, hbase, ok_bind]
        rfl
    obtain ⟨t, s, h, ht⟩ := hmerge hreg blobBase
    refine ⟨?_, blobBase, t, s, hbase, h, ?_, ?_⟩
    · rw [getFileStatus_file hnode hdisk' hblob', statusBlob_stagedWith hchanged,
        gotObjectOpenAsBlob, ok_bind]
      split
      · exact ⟨_, rfl⟩
      · exact ⟨_, rfl⟩
    · rw [ht, Option.map_some, hnode]
      rfl
    · rw [ht]
      exact (getFileStatus_mergedFile hchanged hstage hnode hstatus).mpr hracy

/-- **A symlink that was staged is restored exactly if** its entry is not one of a file, and
what is read of it, of its blob and of the base fits. -/
theorem restored_link_iff (hcb : ∀ status path s, ∃ s', progressCb status path s = .ok s')
    (hchanged : status = .add ∨ status = .modify) (hstage : ie.stage = .none)
    (hnode : sb.node = .symlink target) (htarget : LinkTarget target)
    (hstatus : getFileStatus host ie (some sb) = .ok status)
    (hsb : st1.tree.node ie.path = some sb)
    (hget : gotFileindexEntryGet st1.fileindex ie.path = some (ie.stagedWith status sb target)) :
    (∃ st2 ie', gotWorktreeUnstage host now followed idStr wt progressCb [ie.path] st1 = .ok st2
      ∧ gotFileindexEntryGet st2.fileindex ie.path = some ie'
      ∧ Restored host ie ie' (some sb) (st2.tree.node ie.path)) ↔
    ¬(ie.filetype = .regularFile ∨ ie.filetype = .badSymlink)
      ∧ (ie.filetype = .symlink → ie.statInfoDiffers sb →
        host.hdrlen (.blob target) + target.length < PATH_MAX)
      ∧ (status = .modify → ∃ content, gotObjectOpenAsBlob ie.blobSha1 = .ok content
        ∧ 0 < host.hdrlen ie.blobSha1 + content.length) := by
  have hlnk : S_ISLNK sb.mode := sb.isLnk_iff.mpr ⟨target, hnode⟩
  have htype : (ie.stagedWith status sb target).stagedFiletype = .symlink := if_pos hlnk
  obtain ⟨-, hdisk⟩ := isFile_of_changed hchanged hstatus
  have hblob := hasBlob_of_changed hchanged hstage hstatus
  have hmodify : status = .modify → ie.hasBlob := fun h => by
    obtain ⟨hadd, -⟩ | ⟨-, hblob, -⟩ := hblob
    · exact nomatch h.symm.trans hadd
    · exact hblob
  have hdisk' : (ie.stagedWith status sb target).hasFileOnDisk := hdisk
  have hreport : (∃ report, getFileStatus host (ie.stagedWith status sb target) (some sb)
      = .ok report) ↔ (ie.filetype = .symlink → ie.statInfoDiffers sb →
        host.hdrlen (.blob target) + target.length < PATH_MAX) :=
    exists_getFileStatus_link hnode hdisk' (hasBlob_stagedWith hblob)
      (statusBlob_stagedWith hchanged)
  rw [exists_restored_iff hchanged hstage hstatus hsb hget, hreport,
    ← exists_ancestorTarget hchanged hmodify]
  constructor
  · rintro ⟨hfits, blobBase, t, s, hbase, h, hsame, -⟩
    have hreg : ¬(ie.filetype = .regularFile ∨ ie.filetype = .badSymlink) := fun hreg => by
      obtain ⟨merged, ht⟩ := mergeStaged_isReg htype hreg h
      rw [ht, hnode] at hsame
      exact nomatch Option.some_inj.mp hsame
    rw [mergeStaged_link htarget htype hreg] at h
    exact ⟨hreg, hfits, blobBase, hbase, ancestorTarget_of_mergeSymlink h⟩
  · rintro ⟨hreg, hfits, blobBase, hbase, ancestor, hancestor⟩
    obtain ⟨s, h⟩ := mergeSymlink_self hcb hsb hnode htarget.2.2 hancestor
    rw [← mergeStaged_link htarget htype hreg] at h
    refine ⟨hfits, blobBase, _, s, hbase, h, ?_, ?_⟩
    · rw [hsb, Option.map_some]
    · rw [hsb]
      exact hstatus

/-- A deletion that was staged is only taken out of the entry. -/
theorem gotWorktreeUnstage_deleted (hcb : ∀ status path s, ∃ s', progressCb status path s = .ok s')
    (hstage : ie.stage = .delete) (hdisk : ¬ie.hasFileOnDisk)
    (hstatus : getFileStatus host ie (st1.tree.node ie.path) = .ok .delete)
    (hget : gotFileindexEntryGet st1.fileindex ie.path = some ie) :
    ∃ s, gotWorktreeUnstage host now followed idStr wt progressCb [ie.path] st1
      = .ok ⟨st1.tree, replaceEntry st1.fileindex ie.unstaged, s⟩ := by
  have hdisk' : ¬ie.unstaged.hasFileOnDisk := hdisk
  have hunstaged : getFileStatus host ie.unstaged (st1.tree.node ie.path) = .ok .delete :=
    (getFileStatus_congr_deleted hdisk' hdisk).trans hstatus
  have hstaged : ie.stagedStatus = .delete := by
    rw [FileIndexEntry.stagedStatus, hstage]
  obtain ⟨s, hs⟩ := hcb .delete ie.path st1.arg
  refine ⟨s, ?_⟩
  rw [gotWorktreeUnstage_file (by rw [hstage]; exact fun h => (by cases h)) hget fun sb hsb =>
    not_dir_of_getFileStatus hstatus (by decide) hsb, hstatus, ok_bind]
  unfold unstagePath
  rw [hstaged]
  dsimp only
  rw [hget]
  dsimp only
  rw [hunstaged, ok_bind, hs, ok_bind]
  rfl

/-- **A deletion that was staged is always restored.** -/
theorem restored_deleted (hcb : ∀ status path s, ∃ s', progressCb status path s = .ok s')
    (hstage : ie.stage = .none)
    (hstatus : getFileStatus host ie (st1.tree.node ie.path) = .ok .delete)
    (hget : gotFileindexEntryGet st1.fileindex ie.path = some { ie with stage := .delete }) :
    ∃ st2 ie', gotWorktreeUnstage host now followed idStr wt progressCb [ie.path] st1 = .ok st2
      ∧ gotFileindexEntryGet st2.fileindex ie.path = some ie'
      ∧ Restored host ie ie' (st1.tree.node ie.path) (st2.tree.node ie.path) := by
  have hdisk := not_hasFileOnDisk_of_delete hstage hstatus
  have hdisk' : ¬({ ie with stage := .delete } : FileIndexEntry).hasFileOnDisk := hdisk
  obtain ⟨s, hs⟩ := gotWorktreeUnstage_deleted hcb rfl hdisk'
    ((getFileStatus_congr_deleted hdisk' hdisk).trans hstatus) hget
  exact ⟨_, _, hs, @gotFileindexEntryGet_replace _ { ie with stage := .delete } _ rfl hget,
    (restored_iff_node hstage).mpr ⟨rfl, rfl⟩⟩

/-- **Unstaging undoes staging exactly if** a file that is there has an entry of its type, and
what is read of it, of its blob and of the base fits. -/
theorem restored_iff (hcb : ∀ status path s, ∃ s', progressCb status path s = .ok s')
    (hchanged : Stageable status) (hstage : ie.stage = .none)
    (hstatus : getFileStatus host ie (st.tree.node ie.path) = .ok status)
    (hget : gotFileindexEntryGet st.fileindex ie.path = some ie)
    (htarget : ∀ sb target, st.tree.node ie.path = some sb → sb.node = .symlink target →
      LinkTarget target)
    (h : gotWorktreeStage host wt statusCb headCommitId allowBadSymlinks [ie.path] st = .ok st1) :
    (∃ st2 ie', gotWorktreeUnstage host now followed idStr wt progressCb [ie.path] st1 = .ok st2
      ∧ gotFileindexEntryGet st2.fileindex ie.path = some ie'
      ∧ Restored host ie ie' (st.tree.node ie.path) (st2.tree.node ie.path)) ↔
    (status ≠ .delete → ∀ sb, st.tree.node ie.path = some sb →
      UnstagesExactly host now ie status sb) := by
  obtain ⟨htree, ie1, hget1, ⟨rfl, rfl⟩ | ⟨hne, sb, content, hsb, hdata, rfl⟩⟩ :=
    gotWorktreeStage_file hchanged hstage hstatus hget h
  · rw [← htree] at hstatus ⊢
    exact iff_of_true (restored_deleted hcb hstage hstatus hget1) fun h => absurd rfl h
  have hchanged' : status = .add ∨ status = .modify :=
    hchanged.imp_right fun h => h.resolve_right hne
  have hexactly : (status ≠ .delete → ∀ sb, st.tree.node ie.path = some sb →
      UnstagesExactly host now ie status sb) ↔ UnstagesExactly host now ie status sb := by
    refine ⟨fun h => h hne sb hsb, fun h _ sb' hsb' => ?_⟩
    rw [← Option.some_inj.mp (hsb.symm.trans hsb')]
    exact h
  rw [hsb] at hstatus
  rw [hexactly, hsb]
  have hsb1 : st1.tree.node ie.path = some sb := by
    rw [htree, hsb]
  cases hnode : sb.node with
  | file data =>
    rw [Inode.data, hnode] at hdata
    cases hdata
    rw [restored_file_iff hcb hchanged' hstage hnode hstatus hsb1 hget1]
    refine ⟨fun h => ⟨fun _ _ => h, fun target hlink => ?_⟩, fun h => h.file _ hnode⟩
    cases hnode.symm.trans hlink
  | symlink target =>
    rw [Inode.data, hnode] at hdata
    cases hdata
    rw [restored_link_iff hcb hchanged' hstage hnode (htarget sb content hsb hnode) hstatus hsb1
      hget1]
    refine ⟨fun h => ⟨fun data hfile => ?_, fun target hlink => ?_⟩, fun h => h.link _ hnode⟩
    · cases hnode.symm.trans hfile
    · cases hnode.symm.trans hlink
      exact h
  | dir =>
    exact absurd hnode (Inode.not_dir_of_isFile (isFile_of_changed hchanged' hstatus).1)
  | other =>
    rw [Inode.data, hnode] at hdata
    cases hdata

end Restored

/-! ## A file in the place of a symlink -/

/-- The base commit has a symlink to `a`. -/
def oneLinkCommit : Commit :=
  .mk (.tree (.cons S_IFLNK fileName (.blob [0x61]) .nil)) .nil ⟨[], 0, [], 0, []⟩

/-- The entry of the symlink. -/
def oneLinkEntry : FileIndexEntry :=
  { path := stagedEntry.path, filetype := .symlink,
    blobSha1 := .blob [0x61], commitSha1 := some oneLinkCommit, size := 1 }

/-- The digits of an id, here zeros. -/
def zeroIdStr (_ : CommitId) : IdStr := ⟨List.replicate 40 0x30, List.length_replicate⟩

/-- **A file that was put in the place of a symlink cannot be unstaged.** -/
theorem not_restored_oneLinkEntry :
    getFileStatus someHost oneLinkEntry ((oneFileTree changedFile).node oneLinkEntry.path)
        = .ok .modify
      ∧ ∃ st1, gotWorktreeStage someHost ⟨[], [], oneLinkCommit⟩ (fun _ _ _ _ _ s => .ok s)
          oneLinkCommit false [oneLinkEntry.path] ⟨oneFileTree changedFile, [oneLinkEntry], ()⟩
          = .ok st1
        ∧ gotWorktreeUnstage someHost ⟨9, 0⟩ (fun _ => .error (.errno .noent)) zeroIdStr
          ⟨[], [], oneLinkCommit⟩ (fun _ _ s => .ok s) [oneLinkEntry.path] st1
          = .error (.errno .inval)
        ∧ ¬∃ st2 ie', gotWorktreeUnstage someHost ⟨9, 0⟩ (fun _ => .error (.errno .noent)) zeroIdStr
          ⟨[], [], oneLinkCommit⟩ (fun _ _ s => .ok s) [oneLinkEntry.path] st1 = .ok st2
          ∧ gotFileindexEntryGet st2.fileindex oneLinkEntry.path = some ie'
          ∧ Restored someHost oneLinkEntry ie' ((oneFileTree changedFile).node oneLinkEntry.path)
            (st2.tree.node oneLinkEntry.path) := by
  refine ⟨rfl, _, rfl, rfl, ?_⟩
  rintro ⟨st2, ie', h, -⟩
  exact nomatch h

/-- A file of which the content was changed is restored. -/
theorem restored_changedFile :
    ∃ st1, gotWorktreeStage someHost oneFileCheckout (fun _ _ _ _ _ s => .ok s) oneFileCommit false
        [changedEntry.path] ⟨oneFileTree changedFile, [changedEntry], ()⟩ = .ok st1
      ∧ ∃ st2 ie', gotWorktreeUnstage someHost ⟨9, 0⟩ (fun _ => .error (.errno .noent)) zeroIdStr
        oneFileCheckout (fun _ _ s => .ok s) [changedEntry.path] st1 = .ok st2
        ∧ gotFileindexEntryGet st2.fileindex changedEntry.path = some ie'
        ∧ Restored someHost changedEntry ie' ((oneFileTree changedFile).node changedEntry.path)
          (st2.tree.node changedEntry.path) := by
  obtain ⟨st1, h⟩ : ∃ st1, gotWorktreeStage someHost oneFileCheckout (fun _ _ _ _ _ s => .ok s)
      oneFileCommit false [changedEntry.path] ⟨oneFileTree changedFile, [changedEntry], ()⟩
      = .ok st1 := ⟨_, rfl⟩
  have hnode : (oneFileTree changedFile).node changedEntry.path = some changedFile := rfl
  have hstatus : getFileStatus someHost changedEntry
      ((oneFileTree changedFile).node changedEntry.path) = .ok .modify := rfl
  refine ⟨st1, h, (restored_iff (fun _ _ s => ⟨s, rfl⟩) (Or.inr (Or.inl rfl)) rfl hstatus rfl
    (fun sb target hsb hlink => ?_) h).mpr fun _ sb hsb => ?_⟩
  · cases hnode.symm.trans hsb
    exact nomatch hlink
  · cases hnode.symm.trans hsb
    exact ⟨fun data hdata => ⟨Or.inl rfl, fun _ => by decide⟩, fun target hlink => (nomatch hlink)⟩

end Got

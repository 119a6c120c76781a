import Got.Worktree.DeleteBlob
import Got.Worktree.MergeBlob
import Got.Worktree.Revert

/-!
# Staging and unstaging

`got_worktree_stage` makes a blob of a file that was changed, and notes it down in the entry of
the file, with the type the file has on disk. `got_worktree_unstage` merges the staged blob into
the file on disk, with the base blob as the original, and takes the stage away again.

How files are merged is decided by the type that was staged and by the mode of the entry, and
not by what is on disk.
-/

namespace Got

section Stage

variable {σ : Type} (host : Host) (now : Timespec) (followed : RelPath → Except GotErr Bytes)
  (idStr : CommitId → IdStr) (wt : Checkout)

/-! ## Staging -/

/-- **`check_stage_ok`**: whether there are changes. -/
def checkStageOk (fileindex : List FileIndexEntry) (headCommitId : Commit) : StatusCb Bool :=
  fun status stagedStatus relpath blobId _ _ haveChanges =>
    if status = .unversioned ∨ status = .noChange then .ok haveChanges
    else if status = .nonexistent then .error (.errno .noent)
    else
      match gotFileindexEntryGet fileindex relpath with
      | none => .error .fileStatus
      | some ie =>
        if status = .conflict then .error .stageConflict
        else if status ≠ .add ∧ status ≠ .modify ∧ status ≠ .delete then .error .fileStatus
        else do
          checkOutOfDate (wt.pathPrefix ++ relpath.val) status stagedStatus blobId
            (if ie.hasCommit then some ie.commitSha1 else none) headCommitId .stageOutOfDate
          return true

variable
  (statusCb : Status → Status → RelPath → Option Object → Option Object → σ → Except GotErr σ)

/-- The work tree in which a symlink is checked. -/
def Checkout.worktree (st : WorkingCopy σ) : Worktree :=
  ⟨wt.rootPath, wt.pathPrefix, wt.baseCommitId, st.fileindex, st.tree.node⟩

/-- The type of a file that is staged. A symlink that is bad is not. -/
def stagedTypeOf (st : WorkingCopy σ) (allowBadSymlinks : Bool) (relpath : RelPath) (sb : Inode) :
    Except GotErr FileIdxMode :=
  if ¬S_ISLNK sb.mode then .ok .regularFile
  else if allowBadSymlinks then .ok .symlink
  else do
    checkSymlink host (wt.worktree st) relpath
    return .symlink

/-- Stage a file that was added or modified, as it is on disk. -/
def stageContent (allowBadSymlinks : Bool) (status stagedStatus : Status) (relpath : RelPath)
    (blobId : Option Object) (st : WorkingCopy σ) (ie : FileIndexEntry) :
    Except GotErr (WorkingCopy σ × Bool) :=
  match st.tree.node relpath with
  | none => .error (.errno .noent)
  | some sb => do
    let content ← sb.data
    let filetype ← stagedTypeOf host wt st allowBadSymlinks relpath sb
    let ie := { ie with
      stagedBlobSha1 := .blob content
      stage := if status = .add ∨ stagedStatus = .add then .add else .modify
      stagedFiletype := filetype }
    let s ← statusCb .noChange ie.stagedStatus relpath blobId (some (.blob content)) st.arg
    return ({ st with fileindex := replaceEntry st.fileindex ie, arg := s }, true)

/-- **`stage_path`**, without a callback for patches: the work tree, and whether something was
staged. -/
def stagePath (allowBadSymlinks : Bool) : StatusCb (WorkingCopy σ × Bool) :=
  fun status stagedStatus relpath blobId _ _ (st, stagedSomething) =>
    if status = .unversioned then .ok (st, stagedSomething)
    else
      match gotFileindexEntryGet st.fileindex relpath with
      | none => .error .fileStatus
      | some ie =>
        match status with
        | .add | .modify =>
          stageContent host wt statusCb allowBadSymlinks status stagedStatus relpath blobId st ie
        | .delete =>
          if stagedStatus = .delete then .ok (st, stagedSomething)
          else do
            let ie := { ie with stage := .delete }
            let s ← statusCb .noChange ie.stagedStatus relpath none none st.arg
            return ({ st with fileindex := replaceEntry st.fileindex ie, arg := s }, true)
        | .noChange => .ok (st, stagedSomething)
        | .conflict => .error .stageConflict
        | .nonexistent => .error (.errno .noent)
        | _ => .error .fileStatus

/-- **`got_worktree_stage`** -/
def gotWorktreeStage (headCommitId : Commit) (allowBadSymlinks : Bool) (paths : List (List Name))
    (st : WorkingCopy σ) : Except GotErr (WorkingCopy σ) := do
  let haveChanges ← paths.foldlM (fun haveChanges path => worktreeStatus host st.tree.node
    st.fileindex (checkStageOk wt st.fileindex headCommitId) path haveChanges) false
  if ¬haveChanges then .error .stageNoChange
  else do
    let (st, stagedSomething) ← paths.foldlM (fun state path => worktreeStatus host
      state.1.tree.node state.1.fileindex (stagePath host wt statusCb allowBadSymlinks) path state)
      (st, false)
    if ¬stagedSomething then .error .stageNoChange else return st

/-! ## Unstaging -/

variable (progressCb : Status → RelPath → σ → Except GotErr σ)

/-- An entry that is not staged any more. -/
def FileIndexEntry.unstaged (ie : FileIndexEntry) : FileIndexEntry :=
  { ie with stage := .none, stagedFiletype := .none }

/-- The staged blob is merged into what is on disk. -/
def mergeStaged (st : WorkingCopy σ) (ie : FileIndexEntry) (relpath : RelPath)
    (blobBase : Option (Object × Bytes)) (stagedBlobId : Object) (staged : Bytes) (id : IdStr) :
    Except GotErr (DiskTree × σ) :=
  let merge : Except GotErr (DiskTree × σ) := do
    let (_, t, s) ← mergeBlob now followed progressCb st.tree (blobBase.map Prod.snd) relpath
      ie.permsToSt (baseLabel id) staged id st.arg
    return (t, s)
  match ie.stagedFiletype with
  | .badSymlink | .regularFile => merge
  | .symlink =>
    if S_ISLNK ie.permsToSt then do
      let stagedTarget ← gotObjectBlobReadToStr host stagedBlobId staged
      mergeSymlink host now progressCb st.tree blobBase relpath (baseLabel id) stagedTarget id
        st.arg
    else merge
  | .none => .error .badFiletype

/-- The base blob, which there is if the file was modified. -/
def unstageBase (stagedStatus : Status) (blobId : Option Object) :
    Except GotErr (Option (Object × Bytes)) :=
  if stagedStatus = .modify then do
    let id ← deref blobId
    let content ← gotObjectOpenAsBlob id
    return some (id, content)
  else .ok none

/-- **`unstage_path`**, without a callback for patches. -/
def unstagePath : StatusCb (WorkingCopy σ) :=
  fun _ stagedStatus relpath blobId stagedBlobId commitId st =>
    match stagedStatus with
    | .modify | .add =>
      match gotFileindexEntryGet st.fileindex relpath with
      | none => .error .fileStatus
      | some ie => do
        let blobBase ← unstageBase stagedStatus blobId
        let stagedBlobId ← deref stagedBlobId
        let staged ← gotObjectOpenAsBlob stagedBlobId
        let (t, s) ← mergeStaged host now followed progressCb st ie relpath blobBase stagedBlobId
          staged (idStr (commitId.getD (some wt.baseCommitId)))
        return ⟨t, replaceEntry st.fileindex ie.unstaged, s⟩
    | .delete =>
      match gotFileindexEntryGet st.fileindex relpath with
      | none => .error .fileStatus
      | some ie => do
        let status ← getFileStatus host ie.unstaged (st.tree.node relpath)
        let s ← progressCb status relpath st.arg
        return ⟨st.tree, replaceEntry st.fileindex ie.unstaged, s⟩
    | _ => .ok st

/-- **`got_worktree_unstage`** -/
def gotWorktreeUnstage (paths : List (List Name)) (st : WorkingCopy σ) :
    Except GotErr (WorkingCopy σ) :=
  paths.foldlM (fun st path => worktreeStatus host st.tree.node st.fileindex
    (unstagePath host now followed idStr wt progressCb) path st) st

end Stage

/-! ## What is asked for -/

/-- **A file and its entry are as they were**: what is on disk and in it, the ids and the
stage of the entry, and the status. -/
structure Restored (host : Host) (ie ie' : FileIndexEntry) (before after : Option Inode) :
    Prop where
  node : after.map Inode.node = before.map Inode.node
  blob : ie'.baseBlob = ie.baseBlob
  commit : ie'.baseCommit = ie.baseCommit
  stage : ie'.stage = ie.stage
  status : getFileStatus host ie' after = getFileStatus host ie before

/-- What `symlink(2)` takes for the target of a symlink. -/
def LinkTarget (target : Bytes) : Prop := target ≠ [] ∧ 0 ∉ target ∧ target.length < PATH_MAX

/-- **When a file that was added or modified is restored.** A file has an entry of a file, and
the new file is not taken for the one the entry is from; a symlink has another entry, fits in
a buffer with the header of its blob, if that is read, and its base blob can be read. -/
structure UnstagesExactly (host : Host) (now : Timespec) (ie : FileIndexEntry) (status : Status)
    (sb : Inode) : Prop where
  file : ∀ data, sb.node = .file data →
    (ie.filetype = .regularFile ∨ ie.filetype = .badSymlink)
      ∧ (status = .modify → ¬(ie.ctim = now ∧ ie.mtim = now ∧ ie.size = sb.size))
  link : ∀ target, sb.node = .symlink target →
    ¬(ie.filetype = .regularFile ∨ ie.filetype = .badSymlink)
      ∧ (ie.filetype = .symlink → ie.statInfoDiffers sb →
        host.hdrlen (.blob target) + target.length < PATH_MAX)
      ∧ (status = .modify → ∃ content, gotObjectOpenAsBlob ie.blobSha1 = .ok content
        ∧ 0 < host.hdrlen ie.blobSha1 + content.length)

/-! ## The status of files and symlinks -/

section Status

variable {host : Host} {ie : FileIndexEntry} {sb : Inode} {data target : Bytes} {status : Status}

/-- The status of an added file does not depend on what is in it. -/
theorem getFileStatus_added (hfile : sb.isFile) (hdisk : ie.hasFileOnDisk) (hblob : ¬ie.hasBlob)
    (hstage : ie.stage = .none) : getFileStatus host ie (some sb) = .ok .add := by
  rw [Inode.isFile, decide_eq_true_iff] at hfile
  unfold getFileStatus
  dsimp only
  rw [if_neg (by tauto), if_neg (not_not.mpr hdisk),
    if_pos ⟨hblob, by rw [stagedStatus_of_stage hstage]; decide⟩]

/-- **The status of a regular file** is found out by its content. -/
theorem getFileStatus_file (hnode : sb.node = .file data) (hdisk : ie.hasFileOnDisk)
    (hblob : ie.hasBlob ∨ ie.stage = .add) :
    getFileStatus host ie (some sb) = if ¬ie.statInfoDiffers sb then .ok .noChange
      else gotObjectOpenAsBlob ie.statusBlob >>= fun content =>
        .ok (getRegularFileStatus ie sb data content) := by
  have hreg : S_ISREG sb.mode := sb.isReg_iff.mpr ⟨data, hnode⟩
  have hlnk : ¬S_ISLNK sb.mode := fun hl => Inode.not_isReg_of_isLnk hl hreg
  have hdata : sb.data = .ok data := by
    rw [Inode.data, hnode]
  unfold getFileStatus
  dsimp only
  rw [if_neg (fun h => h.1 hreg), if_neg (not_not.mpr hdisk),
    if_neg (fun h => hblob.elim h.1 fun hadd => h.2 (stagedStatus_eq_add_iff.mpr hadd))]
  refine if_congr Iff.rfl rfl ?_
  rw [if_neg (fun h => hlnk h.1)]
  refine congrArg (gotObjectOpenAsBlob ie.statusBlob >>= ·) (funext fun content => ?_)
  rw [hdata, ok_bind, if_neg hlnk]
  rfl

/-- **The status of a symlink** is found out by its target, if the entry is one of a symlink. -/
theorem getFileStatus_symlink (hnode : sb.node = .symlink target) (hdisk : ie.hasFileOnDisk)
    (hblob : ie.hasBlob ∨ ie.stage = .add) :
    getFileStatus host ie (some sb) = if ¬ie.statInfoDiffers sb then .ok .noChange
      else if ie.filetype ≠ .symlink then .ok .modify
      else gotObjectOpenAsBlob ie.statusBlob >>= fun content =>
        getSymlinkModificationStatus (host.hdrlen ie.statusBlob) target content := by
  have hlnk : S_ISLNK sb.mode := sb.isLnk_iff.mpr ⟨target, hnode⟩
  have hdata : sb.data = .ok target := by
    rw [Inode.data, hnode]
  unfold getFileStatus
  dsimp only
  rw [if_neg (fun h => h.2 hlnk), if_neg (not_not.mpr hdisk),
    if_neg (fun h => hblob.elim h.1 fun hadd => h.2 (stagedStatus_eq_add_iff.mpr hadd))]
  refine if_congr Iff.rfl rfl (if_congr (and_iff_right hlnk) rfl ?_)
  refine congrArg (gotObjectOpenAsBlob ie.statusBlob >>= ·) (funext fun content => ?_)
  rw [hdata, ok_bind, if_pos hlnk]
  rfl

end Status

/-! ## What is staged -/

section Runs

variable {σ : Type} {host : Host} {now : Timespec} {followed : RelPath → Except GotErr Bytes}
  {idStr : CommitId → IdStr} {wt : Checkout} {headCommitId : Commit} {allowBadSymlinks : Bool}
  {statusCb : Status → Status → RelPath → Option Object → Option Object → σ → Except GotErr σ}
  {progressCb : Status → RelPath → σ → Except GotErr σ} {st st1 st2 : WorkingCopy σ}
  {ie ie1 : FileIndexEntry} {status : Status} {sb : Inode}

/-- The statuses of a file that can be staged. -/
def Stageable (status : Status) : Prop := status = .add ∨ status = .modify ∨ status = .delete

instance (status : Status) : Decidable (Stageable status) :=
  inferInstanceAs (Decidable (_ ∨ _ ∨ _))

/-- **An entry of which the file was staged**, with its content. -/
def FileIndexEntry.stagedWith (ie : FileIndexEntry) (status : Status) (sb : Inode)
    (content : Bytes) : FileIndexEntry :=
  { ie with
    stagedBlobSha1 := .blob content
    stage := if status = .add then .add else .modify
    stagedFiletype := if S_ISLNK sb.mode then .symlink else .regularFile }

/-- A file is staged as what it is on disk. -/
theorem stagedTypeOf_eq {relpath : RelPath} {filetype : FileIdxMode}
    (h : stagedTypeOf host wt st allowBadSymlinks relpath sb = .ok filetype) :
    filetype = if S_ISLNK sb.mode then .symlink else .regularFile := by
  unfold stagedTypeOf at h
  by_cases hlnk : S_ISLNK sb.mode
  · rw [if_neg (not_not.mpr hlnk)] at h
    rw [if_pos hlnk]
    split at h
    · exact (Except.ok.inj h).symm
    · obtain ⟨-, -, h⟩ := bind_eq_ok_iff.mp h
      exact (Except.ok.inj h).symm
  · rw [if_pos hlnk] at h
    rw [if_neg hlnk]
    exact (Except.ok.inj h).symm

/-- What is staged of a file. -/
theorem stageContent_spec {blobId : Option Object} {b1 : Bool}
    (hget : gotFileindexEntryGet st.fileindex ie.path = some ie)
    (h : stageContent host wt statusCb allowBadSymlinks status .noChange ie.path blobId st ie
      = .ok (st1, b1)) :
    st1.tree = st.tree ∧ ∃ sb content, st.tree.node ie.path = some sb ∧ sb.data = .ok content
      ∧ gotFileindexEntryGet st1.fileindex ie.path = some (ie.stagedWith status sb content) := by
  unfold stageContent at h
  split at h
  · exact nomatch h
  rename_i sb hsb
  obtain ⟨content, hcontent, h⟩ := bind_eq_ok_iff.mp h
  obtain ⟨filetype, htype, h⟩ := bind_eq_ok_iff.mp h
  obtain ⟨s1, -, h⟩ := bind_eq_ok_iff.mp h
  cases h
  refine ⟨rfl, sb, content, hsb, hcontent, ?_⟩
  have hentry : ({ ie with
      stagedBlobSha1 := .blob content
      stage := if status = .add ∨ Status.noChange = .add then .add else .modify
      stagedFiletype := filetype } : FileIndexEntry) = ie.stagedWith status sb content := by
    have hstage : (if status = .add ∨ Status.noChange = .add then Stage.add else .modify)
        = if status = .add then .add else .modify := if_congr (or_iff_left (by decide)) rfl rfl
    rw [stagedTypeOf_eq htype, hstage]
    rfl
  rw [hentry]
  exact gotFileindexEntryGet_replace rfl hget

/-- **What `stage_path` does** to the entry of a file that is not staged yet. -/
theorem stagePath_spec {blobId stagedBlobId : Option Object} {commitId : Option CommitId}
    {b b1 : Bool} (hchanged : Stageable status)
    (hget : gotFileindexEntryGet st.fileindex ie.path = some ie)
    (h : stagePath host wt statusCb allowBadSymlinks status .noChange ie.path blobId stagedBlobId
      commitId (st, b) = .ok (st1, b1)) :
    st1.tree = st.tree ∧ ∃ ie1, gotFileindexEntryGet st1.fileindex ie.path = some ie1 ∧
      ((status = .delete ∧ ie1 = { ie with stage := .delete }) ∨
      (status ≠ .delete ∧ ∃ sb content, st.tree.node ie.path = some sb ∧ sb.data = .ok content
        ∧ ie1 = ie.stagedWith status sb content)) := by
  have hcontent (hne : status ≠ .delete)
      (h : stageContent host wt statusCb allowBadSymlinks status .noChange ie.path blobId st ie
        = .ok (st1, b1)) :
      st1.tree = st.tree ∧ ∃ ie1, gotFileindexEntryGet st1.fileindex ie.path = some ie1 ∧
        ((status = .delete ∧ ie1 = { ie with stage := .delete }) ∨
        (status ≠ .delete ∧ ∃ sb content, st.tree.node ie.path = some sb ∧ sb.data = .ok content
          ∧ ie1 = ie.stagedWith status sb content)) := by
    obtain ⟨htree, sb, content, hsb, hdata, hfound⟩ := stageContent_spec hget h
    exact ⟨htree, _, hfound, Or.inr ⟨hne, sb, content, hsb, hdata, rfl⟩⟩
  unfold stagePath at h
  dsimp only at h
  rcases hchanged with rfl | rfl | rfl
  · rw [if_neg (by decide), hget] at h
    exact hcontent (by decide) h
  · rw [if_neg (by decide), hget] at h
    exact hcontent (by decide) h
  · rw [if_neg (by decide), hget] at h
    dsimp only at h
    rw [if_neg (by decide)] at h
    obtain ⟨s1, -, h⟩ := bind_eq_ok_iff.mp h
    cases h
    exact ⟨rfl, _, gotFileindexEntryGet_replace rfl hget, Or.inl ⟨rfl, rfl⟩⟩

/-- **What staging a file does.** -/
theorem gotWorktreeStage_file (hchanged : Stageable status) (hstage : ie.stage = .none)
    (hstatus : getFileStatus host ie (st.tree.node ie.path) = .ok status)
    (hget : gotFileindexEntryGet st.fileindex ie.path = some ie)
    (h : gotWorktreeStage host wt statusCb headCommitId allowBadSymlinks [ie.path] st = .ok st1) :
    st1.tree = st.tree ∧ ∃ ie1, gotFileindexEntryGet st1.fileindex ie.path = some ie1 ∧
      ((status = .delete ∧ ie1 = { ie with stage := .delete }) ∨
      (status ≠ .delete ∧ ∃ sb content, st.tree.node ie.path = some sb ∧ sb.data = .ok content
        ∧ ie1 = ie.stagedWith status sb content)) := by
  have hne : ¬(status = .noChange ∧ ie.stagedStatus = .noChange) := by
    rintro ⟨rfl, -⟩
    exact absurd hchanged (by decide)
  have hobstructed : status ≠ .obstructed := by
    rintro rfl
    exact absurd hchanged (by decide)
  unfold gotWorktreeStage at h
  obtain ⟨haveChanges, -, h⟩ := bind_eq_ok_iff.mp h
  split at h
  · exact nomatch h
  obtain ⟨⟨st', b1⟩, hfold, h⟩ := bind_eq_ok_iff.mp h
  dsimp only at h
  split at h
  · exact nomatch h
  cases h
  rw [List.foldlM_cons, worktreeStatus_file hget fun _ hsb =>
      not_dir_of_getFileStatus hstatus hobstructed hsb,
    reportFileStatus, hstatus, ok_bind, if_neg hne, stagedStatus_of_stage hstage] at hfold
  obtain ⟨⟨st2, b2⟩, hpath, hfold⟩ := bind_eq_ok_iff.mp hfold
  cases hfold
  exact stagePath_spec hchanged hget hpath

end Runs

end Got

import Mathlib.Logic.Relation
import Got.Lib.Runs
import Got.Worktree.Applies
import Got.Worktree.Commit

/-!
# Work trees that commit to one branch

Any number of work trees have the same branch, each with its own base commit and its own file
index. A commit reads the head of the branch, collects the files that were changed, creates
blobs, trees and the commit, and then compares the head once more, now with a lock, and replaces
it. Between any two of these, other work trees can commit, files can be edited, and the branch
can be moved.

The last of these steps is one, as no other commit can come in between if the reference of the
branch has a file of its own (`RefLock.neverLost_iff`).

So there are four views of what is current: the head that was read, which the files are checked
against and the new tree is built on; the base commit of the work tree, which becomes the parent;
the blob each file was changed from; and the head that is replaced. The second look at the head
makes the first of them the last, and the check of each file makes the third a part of it. So
what a commit changes in the head that it replaces are its own files, which are there as they
were when they were changed (`kept_of_run`).

But nothing makes the base commit current. The head that was replaced is among the ancestors of
the new one only if it is among those of the base commit, or by accident
(`allAncestors_iff`).
-/

namespace Got.Branch

/-- **How far a commit has come.** -/
inductive Phase
  | idle
  /-- `got_ref_resolve` -/
  | headRead (headCommitId : Commit)
  /-- The files were collected, and none of them is out of date. -/
  | collected (headCommitId : Commit) (commitablePaths : List Commitable)
  /-- Blobs, trees and the commit were created. -/
  | created (headCommitId newCommitId : Commit) (commitablePaths : List Commitable)

/-- **A commit that has become the head**, and what it has replaced. -/
structure Landed where
  replaced : Commit
  base : Commit
  new : Commit
  commitablePaths : List Commitable

/-- **A branch**, with the work trees that commit to it. -/
structure State (ω : Type) where
  head : Commit
  worktree : ω → Worktree
  phase : ω → Phase
  landed : List Landed
  /-- All that was the head, the last one first. -/
  heads : List Commit

/-- A branch that nobody commits to. -/
def initial {ω : Type} (head : Commit) (worktree : ω → Worktree) : State ω :=
  ⟨head, worktree, fun _ => .idle, [], [head]⟩

/-! ## After a commit -/

/-- An entry is no longer staged even if it then cannot be updated. -/
def clearStage (fileindex : List FileIndexEntry) (ct : Commitable) : List FileIndexEntry :=
  match gotFileindexEntryGet fileindex ⟨ct.relpath, ct.relpath_ne⟩ with
  | some ie =>
    if ct.stagedStatus = .add ∨ ct.stagedStatus = .modify then
      replaceEntry fileindex { ie with stage := .none, stagedFiletype := .none }
    else fileindex
  | none => fileindex

/-- **`update_fileindex_after_commit`**. The file index is written to disk even if there was an
error. -/
def updateAfterCommit (disk : Disk) (newBaseCommitId : Commit) (haveStagedFiles : Bool) :
    List FileIndexEntry → List Commitable → List FileIndexEntry
  | fileindex, [] => fileindex
  | fileindex, ct :: cts =>
    match updateFileindexAfterCommit disk newBaseCommitId haveStagedFiles fileindex ct with
    | .ok fileindex => updateAfterCommit disk newBaseCommitId haveStagedFiles fileindex cts
    | .error _ =>
      -- only the error of a file that had no entry ends the loop, that of another one is
      -- overwritten by what comes of the next file
      if (gotFileindexEntryGet fileindex ⟨ct.relpath, ct.relpath_ne⟩).isSome then
        updateAfterCommit disk newBaseCommitId haveStagedFiles (clearStage fileindex ct) cts
      else fileindex

/-- Without an error all files are passed. -/
theorem updateAfterCommit_eq {disk : Disk} {newBaseCommitId : Commit} {haveStagedFiles : Bool}
    {fileindex fileindex' : List FileIndexEntry} {cts : List Commitable}
    (h : cts.foldlM (updateFileindexAfterCommit disk newBaseCommitId haveStagedFiles) fileindex
      = .ok fileindex') :
    updateAfterCommit disk newBaseCommitId haveStagedFiles fileindex cts = fileindex' := by
  induction cts generalizing fileindex with
  | nil => exact Except.ok.inj h
  | cons ct cts ih =>
    rw [List.foldlM_cons] at h
    obtain ⟨fileindex₁, h₁, h⟩ := bind_eq_ok_iff.mp h
    rw [updateAfterCommit, h₁]
    exact ih h

/-- What becomes of the work tree. -/
def worktreeAfterCommit (wt : Worktree) (newCommitId : Commit) (cts : List Commitable) : Worktree :=
  { wt with
    baseCommitId := newCommitId
    fileindex := updateAfterCommit wt.disk newCommitId wt.haveStagedFiles wt.fileindex cts }

/-! ## Steps -/

variable {ω : Type} [DecidableEq ω]

namespace State

/-- A program goes on to its next phase. -/
def moveTo (s : State ω) (w : ω) (phase : Phase) : State ω :=
  { s with phase := Function.update s.phase w phase }

/-- A step that fails ends the commit. -/
def moveToOk (s : State ω) (w : ω) : Except GotErr Phase → State ω
  | .ok phase => s.moveTo w phase
  | .error _ => s.moveTo w .idle

/-- The work tree of a program changes. -/
def setWorktree (s : State ω) (w : ω) (wt : Worktree) : State ω :=
  { s with worktree := Function.update s.worktree w wt }

/-- The branch moves to a new commit. -/
def setHead (s : State ω) (head : Commit) : State ω := { s with head, heads := head :: s.heads }

/-- **The end of `commit_worktree`**, with the reference of the branch locked:
`GOT_ERR_COMMIT_HEAD_CHANGED` if the head is not the one that was read. -/
def land (s : State ω) (w : ω) (headCommitId newCommitId : Commit) (cts : List Commitable) :
    State ω :=
  if headCommitId ≠ s.head then s.moveTo w .idle
  else
    let wt := s.worktree w
    let s := { s with landed := ⟨s.head, wt.baseCommitId, newCommitId, cts⟩ :: s.landed }
    ((s.setHead newCommitId).setWorktree w (worktreeAfterCommit wt newCommitId cts)).moveTo w .idle

end State

/-- **What can happen.** -/
inductive Op (ω : Type)
  | readHead (w : ω)
  | collect (w : ω) (host : Host) (paths : List (List Name)) (allowBadSymlinks : Bool)
  | create (w : ω) (info : CommitInfo)
  | land (w : ω)
  /-- A commit is given up, or is killed. -/
  | abandon (w : ω)
  /-- Files are edited, whether or not the work tree is locked. -/
  | edit (w : ω) (disk : Disk)
  /-- Any other command, which needs the lock of the work tree. -/
  | command (w : ω) (wt : Worktree)
  /-- The branch is moved by something else. -/
  | moveHead (head : Commit)

/-- **One step.** What does not come next in a commit does nothing. -/
def step (s : State ω) : Op ω → State ω
  | .readHead w =>
    match s.phase w with
    | .idle => s.moveTo w (.headRead s.head)
    | _ => s
  | .collect w host paths allowBadSymlinks =>
    match s.phase w with
    | .headRead headCommitId => s.moveToOk w do
      let cts ← commitables host (s.worktree w) headCommitId paths allowBadSymlinks
      return .collected headCommitId cts
    | _ => s
  | .create w info =>
    match s.phase w with
    | .collected headCommitId cts => s.moveToOk w do
      let (newCommitId, cts) ← createCommit (s.worktree w) headCommitId cts info
      return .created headCommitId newCommitId cts
    | _ => s
  | .land w =>
    match s.phase w with
    | .created headCommitId newCommitId cts => s.land w headCommitId newCommitId cts
    | _ => s
  | .abandon w => s.moveTo w .idle
  | .edit w disk => s.setWorktree w { s.worktree w with disk }
  | .command w wt =>
    match s.phase w with
    | .idle => s.setWorktree w wt
    | _ => s
  | .moveHead head => s.setHead head

/-! ## The files of a commit -/

section Files

variable {host : Host} {wt : Worktree} {head : Commit} {cts cts' : List Commitable}
  {ct ct' : Commitable}

/-- **The files that were collected** are below the path prefix, and no two are at one path. -/
structure Collected (wt : Worktree) (cts : List Commitable) : Prop where
  order : InOrderOf Commitable.relpath cts
  pathPrefix : ∀ ct ∈ cts, ct.pathPrefix = wt.pathPrefix

/-- A file is not out of date. -/
def UpToDate (head : Commit) (ct : Commitable) : Prop :=
  checkOutOfDate ct.names ct.status ct.stagedStatus ct.baseBlobId ct.baseCommitId head
    .commitOutOfDate = .ok ()

/-- What a file that is collected is made of. -/
theorem newCommitable_eq_ok {allowBadSymlinks : Bool} {status stagedStatus : Status}
    {relpath : RelPath} {blobId stagedBlobId : Option Object} {commitId : Option CommitId}
    (h : newCommitable host wt allowBadSymlinks status stagedStatus relpath blobId stagedBlobId
      commitId = .ok ct) :
    ct.pathPrefix = wt.pathPrefix ∧ ct.relpath = relpath.val ∧ ct.status = status
      ∧ ct.stagedStatus = stagedStatus ∧ ct.blobId = none
      ∧ baseId status stagedStatus blobId = .ok ct.baseBlobId
      ∧ baseId status stagedStatus commitId = .ok ct.baseCommitId := by
  unfold newCommitable at h
  obtain ⟨-, -, h⟩ := bind_eq_ok_iff.mp h
  obtain ⟨mode, -, h⟩ := bind_eq_ok_iff.mp h
  obtain ⟨-, -, h⟩ := bind_eq_ok_iff.mp h
  obtain ⟨baseBlobId, hblob, h⟩ := bind_eq_ok_iff.mp h
  obtain ⟨baseCommitId, hcommit, h⟩ := bind_eq_ok_iff.mp h
  obtain ⟨stagedBlobId', -, h⟩ := bind_eq_ok_iff.mp h
  split at h
  · obtain rfl := Except.ok.inj h
    exact ⟨rfl, rfl, rfl, rfl, rfl, hblob, hcommit⟩
  · exact nomatch h

theorem gotPathCmp_path (ct ct' : Commitable) :
    gotPathCmp ct.path ct'.path = linCmp ct.relpath ct'.relpath := by
  rw [ct.path_eq, ct'.path_eq]
  exact gotPathCmp_canonicalPath true true ct.relpath ct'.relpath

/-- **One more file** is collected, or none. -/
theorem collectCommitables_eq_ok {allowBadSymlinks haveStagedFiles : Bool}
    {status stagedStatus : Status} {relpath : RelPath} {blobId stagedBlobId : Option Object}
    {commitId : Option CommitId} (hcts : InOrderOf Commitable.relpath cts)
    (h : collectCommitables host wt haveStagedFiles allowBadSymlinks status stagedStatus relpath
      blobId stagedBlobId commitId cts = .ok cts') :
    InOrderOf Commitable.relpath cts' ∧ ∀ ct ∈ cts', ct ∈ cts
      ∨ isCollected haveStagedFiles status stagedStatus
        ∧ newCommitable host wt allowBadSymlinks status stagedStatus relpath blobId stagedBlobId
          commitId = .ok ct := by
  unfold collectCommitables at h
  split at h
  · exact nomatch h
  split at h
  · obtain rfl := Except.ok.inj h
    exact ⟨hcts, fun _ => Or.inl⟩
  rename_i hcollected
  obtain ⟨ct, hct, h⟩ := bind_eq_ok_iff.mp h
  obtain rfl := Except.ok.inj h
  cases hins : gotPathlistInsert Commitable.path cts ct with
  | none => exact ⟨hcts, fun _ => Or.inl⟩
  | some inserted =>
    obtain ⟨horder, hperm⟩ := gotPathlistInsert_spec gotPathCmp_path hcts hins
    refine ⟨horder, fun ct' hct' => ?_⟩
    rcases List.mem_cons.mp (hperm.mem_iff.mp hct') with rfl | hct'
    · exact Or.inr ⟨not_not.mp hcollected, hct⟩
    · exact Or.inl hct'

/-- No file is collected twice. -/
theorem Collected.nodup (h : Collected wt cts) : (cts.map Commitable.names).Nodup := by
  have hnames : cts.map Commitable.names
      = (cts.map Commitable.relpath).map (wt.pathPrefix ++ ·) := by
    rw [List.map_map]
    exact List.map_congr_left fun ct hct => congrArg (· ++ ct.relpath) (h.pathPrefix ct hct)
  rw [hnames]
  exact h.order.nodup.map (List.append_right_injective wt.pathPrefix)

/-- **What `got_worktree_commit` has found** before it creates objects. What holds of each file
when it is collected holds of all. -/
theorem commitables_eq_ok {P : Commitable → Prop} {paths : List (List Name)}
    {allowBadSymlinks : Bool}
    (hP : ∀ status stagedStatus relpath blobId stagedBlobId commitId ct,
      StatusReport host wt.disk wt.fileindex status stagedStatus relpath blobId stagedBlobId
        commitId → isCollected wt.haveStagedFiles status stagedStatus →
      newCommitable host wt allowBadSymlinks status stagedStatus relpath blobId stagedBlobId
        commitId = .ok ct → P ct)
    (h : commitables host wt head paths allowBadSymlinks = .ok cts) :
    InOrderOf Commitable.relpath cts ∧ (∀ ct ∈ cts, P ct) ∧ ∀ ct ∈ cts, UpToDate head ct := by
  obtain ⟨-, -, h⟩ := bind_eq_ok_iff.mp h
  obtain ⟨cts', hcts', h⟩ := bind_eq_ok_iff.mp h
  let Q (cts : List Commitable) : Prop := InOrderOf Commitable.relpath cts ∧ ∀ ct ∈ cts, P ct
  have hnil : Q [] := ⟨List.Pairwise.nil, fun _ h => absurd h List.not_mem_nil⟩
  have hall : Q cts' := by
    refine foldlM_keeps (fun cts hcts path _ cts' h => ?_) hnil hcts'
    refine worktreeStatus_keeps (fun _ _ _ _ _ _ cts cts' hreport hcts h => ?_) hcts h
    obtain ⟨horder, hmem⟩ := collectCommitables_eq_ok hcts.1 h
    refine ⟨horder, fun ct hct => ?_⟩
    rcases hmem ct hct with hct | ⟨hcollected, hct⟩
    · exact hcts.2 ct hct
    · exact hP _ _ _ _ _ _ _ hreport hcollected hct
  split at h
  · exact nomatch h
  obtain ⟨-, -, h⟩ := bind_eq_ok_iff.mp h
  obtain ⟨_, hcheck, h⟩ := bind_eq_ok_iff.mp h
  obtain rfl := Except.ok.inj h
  exact ⟨hall.1, hall.2, forM_eq_ok_iff.mp hcheck⟩

/-- What is to be committed was collected, and is up to date with the head. -/
theorem collected_of_commitables {paths : List (List Name)} {allowBadSymlinks : Bool}
    (h : commitables host wt head paths allowBadSymlinks = .ok cts) :
    Collected wt cts ∧ ∀ ct ∈ cts, UpToDate head ct := by
  obtain ⟨horder, hroot, huptodate⟩ := commitables_eq_ok
    (P := fun ct => ct.pathPrefix = wt.pathPrefix)
    (fun _ _ _ _ _ _ _ _ _ hct => (newCommitable_eq_ok hct).1) h
  exact ⟨⟨horder, hroot⟩, huptodate⟩

/-- Creating the blob of a file changes nothing else of it. -/
theorem createBlob_eq_ok (h : createBlob wt ct = .ok ct') : ∃ blobId, ct' = { ct with blobId } := by
  unfold createBlob at h
  split at h
  · exact ⟨ct.blobId, (Except.ok.inj h).symm⟩
  split at h
  · exact ⟨ct.blobId, (Except.ok.inj h).symm⟩
  obtain ⟨sb, -, h⟩ := bind_eq_ok_iff.mp h
  obtain ⟨data, -, h⟩ := bind_eq_ok_iff.mp h
  exact ⟨_, (Except.ok.inj h).symm⟩

theorem UpToDate.createBlob (h : UpToDate head ct) (hct : createBlob wt ct = .ok ct') :
    UpToDate head ct' := by
  obtain ⟨blobId, rfl⟩ := createBlob_eq_ok hct
  exact h

/-- Creating the blobs keeps the commitables those of the work tree. -/
theorem Collected.createBlobs (h : Collected wt cts) (hcts : cts.mapM (createBlob wt) = .ok cts') :
    Collected wt cts' := by
  have hall := mapM_eq_ok_iff.mp hcts
  have hrelpath : cts'.map Commitable.relpath = cts.map Commitable.relpath := by
    rw [← List.forall₂_eq_eq_eq, List.forall₂_map_left_iff, List.forall₂_map_right_iff]
    refine hall.flip.imp fun ct' ct hct => ?_
    obtain ⟨blobId, rfl⟩ := createBlob_eq_ok hct
    rfl
  refine ⟨List.pairwise_map.mp (hrelpath ▸ List.pairwise_map.mpr h.order), fun ct' hct' => ?_⟩
  obtain ⟨ct, hct, hblob⟩ := forall₂_mem_left hall.flip hct'
  obtain ⟨blobId, rfl⟩ := createBlob_eq_ok hblob
  exact h.pathPrefix ct hct

end Files

/-! ## What a commit keeps of the head -/

section Kept

variable {wt : Worktree} {head : Commit} {cts cts' : List Commitable} {ct : Commitable}

/-- A file of a tree is found there. -/
theorem gotObjectIdByPath_of_filesOf {path : List Name} {file : File}
    (h : filesOf head.treeId.tree? path = some file) :
    gotObjectIdByPath head path = .ok file.2 := by
  obtain ⟨es, hes, hfile⟩ := Option.bind_eq_some_iff.mp h
  obtain ⟨te, hte, hfile⟩ := Option.bind_eq_some_iff.mp hfile
  have hne : path ≠ [] := fun hnil => by rw [hnil] at hte; exact nomatch hte
  unfold TreeEntry.file? at hfile
  split at hfile
  · exact nomatch hfile
  obtain rfl := Option.some.inj hfile
  unfold Object.tree? at hes
  cases hopen : gotObjectOpenAsTree head.treeId with
  | error e =>
    rw [hopen] at hes
    exact nomatch hes
  | ok es₁ =>
    rw [hopen] at hes
    obtain rfl := Option.some.inj hes
    rw [gotObjectIdByPath, if_neg hne, hopen, ok_bind, idBySegments_of_entryAt hte]

/-- There is no file where nothing is found. -/
theorem filesOf_eq_none {path : List Name} {e : GotErr}
    (h : gotObjectIdByPath head path = .error e) : filesOf head.treeId.tree? path = none := by
  cases hfile : filesOf head.treeId.tree? path with
  | none => rfl
  | some file => exact nomatch (gotObjectIdByPath_of_filesOf hfile).symm.trans h

/-- **A file is current**: it was changed from what the head has at its path. -/
def Current (head : Commit) (ct : Commitable) : Prop :=
  if ct.change = .add then filesOf head.treeId.tree? ct.names = none
  else ∃ kind id, filesOf head.treeId.tree? ct.names = some (kind, id) ∧ ct.baseBlobId = some id

/-- **What is up to date and fits is current.** That a changed file is up to date may have been
seen by its base commit alone; but it fits only if it was changed from what is there. -/
theorem UpToDate.current (h : UpToDate head ct) (hfits : Fits head.treeId.tree? ct.names ct) :
    Current head ct := by
  unfold Current
  split
  · next hadd =>
    have hadd' : ct.isAdd := ct.isAdd_iff.mpr hadd
    unfold Commitable.isAdd at hadd'
    unfold UpToDate checkOutOfDate at h
    rw [if_neg (by have := of_decide_eq_true hadd'; tauto)] at h
    split at h
    · next hid => exact filesOf_eq_none hid
    · exact nomatch h
  · next hadd =>
    unfold Fits at hfits
    rw [if_neg hadd] at hfits
    obtain ⟨kind, id, hfile, -, hbase⟩ := hfits
    exact ⟨kind, id, hfile, hbase⟩

/-- **What a commit keeps** of the head it replaces: all but its own files, which are there as
they were when they were changed. -/
structure Landed.Kept (e : Landed) : Prop where
  parentIds : e.new.parentIds = [e.base]
  files : ∀ path, filesOf e.new.treeId.tree? path ≠ filesOf e.replaced.treeId.tree? path →
    ∃ ct ∈ e.commitablePaths, ct.names = path ∧ Current e.replaced ct
      ∧ filesOf e.new.treeId.tree? path = ct.effect

/-- **A commit that is created** keeps what it is to keep of the head that was read. -/
theorem createCommit_kept {info : CommitInfo} {newCommitId : Commit} (hcts : Collected wt cts)
    (huptodate : ∀ ct ∈ cts, UpToDate head ct)
    (h : createCommit wt head cts info = .ok (newCommitId, cts')) :
    (⟨head, wt.baseCommitId, newCommitId, cts'⟩ : Landed).Kept := by
  unfold createCommit at h
  split at h
  · exact nomatch h
  obtain ⟨cts₁, hblobs, h⟩ := bind_eq_ok_iff.mp h
  obtain ⟨⟨newTreeId, n, after⟩, htree, h⟩ := bind_eq_ok_iff.mp h
  obtain ⟨rfl, rfl⟩ := Prod.mk.inj (Except.ok.inj h)
  have huptodate₁ : ∀ ct ∈ cts₁, UpToDate head ct := by
    intro ct hct
    obtain ⟨ct', hct', hblob⟩ := forall₂_mem_left (mapM_eq_ok_iff.mp hblobs).flip hct
    exact (huptodate ct' hct').createBlob hblob
  obtain ⟨es, ho, hw⟩ := bind_eq_ok_iff.mp htree
  have hbase : head.treeId.tree? = some es := by rw [Object.tree?, ho]; rfl
  obtain ⟨es', ho', hcontent, -, -⟩ :=
    writeTree_spec (distinct_of_nodup (hcts.createBlobs hblobs).nodup) (depth cts₁ + 1) []
      (some es) [] newTreeId n after (fun es₁ h₁ => by cases h₁; exact open_order ho)
      (fun _ _ _ _ _ => List.not_mem_nil) hw
  have hnew : newTreeId.tree? = some es' := by rw [Object.tree?, ho']; rfl
  refine ⟨rfl, fun path hpath => ?_⟩
  -- at a path where no file fits there is what there was
  have hfile : ∃ ct ∈ cts₁, ct.names = path ∧ Fits (some es) path ct := by
    by_contra hnone
    refine hpath ?_
    show filesOf newTreeId.tree? path = filesOf head.treeId.tree? path
    rw [hnew, hbase]
    exact hcontent.others path fun ct hct hn hf => hnone ⟨ct, hct, hn, hf⟩
  obtain ⟨ct, hct, rfl, hfits⟩ := hfile
  refine ⟨ct, hct, rfl, (huptodate₁ ct hct).current (by rwa [hbase]), ?_⟩
  obtain ⟨m, rest, hn⟩ := List.exists_cons_of_ne_nil ct.names_ne
  rw [hn] at hfits
  show filesOf newTreeId.tree? ct.names = ct.effect
  rw [hnew, hn]
  exact (hcontent.applied ct hct m rest hn hfits).1

end Kept

/-! ## The invariant -/

/-- What is so at each stage of a commit. The work tree has been locked since the head was read,
so what was collected is still its own. -/
def PhaseOk (wt : Worktree) : Phase → Prop
  | .idle | .headRead _ => True
  | .collected head cts => Collected wt cts ∧ ∀ ct ∈ cts, UpToDate head ct
  | .created head new cts => (⟨head, wt.baseCommitId, new, cts⟩ : Landed).Kept

/-- **The invariant.** -/
structure Orderly (s : State ω) : Prop where
  phase : ∀ w, PhaseOk (s.worktree w) (s.phase w)
  landed : ∀ e ∈ s.landed, e.Kept
  head_mem : s.head ∈ s.heads

namespace Orderly

variable {s : State ω} {w : ω}

/-- Going on to a phase that is in order keeps the system in order. -/
theorem moveTo {phase : Phase} (h : Orderly s) (hphase : PhaseOk (s.worktree w) phase) :
    Orderly (s.moveTo w phase) := by
  refine ⟨fun w' => ?_, h.landed, h.head_mem⟩
  show PhaseOk (s.worktree w') (Function.update s.phase w phase w')
  by_cases hw : w' = w
  · subst hw
    rw [Function.update_self]
    exact hphase
  · rw [Function.update_of_ne hw]
    exact h.phase w'

/-- A program goes on to the phase its action answers, or gives up; either way all is in order. -/
theorem moveToOk {result : Except GotErr Phase} (h : Orderly s)
    (hresult : ∀ phase, result = .ok phase → PhaseOk (s.worktree w) phase) :
    Orderly (s.moveToOk w result) := by
  cases result with
  | error e => exact h.moveTo trivial
  | ok phase => exact h.moveTo (hresult phase rfl)

/-- Changing a work tree keeps the system in order, when its phase stays so. -/
theorem setWorktree {wt : Worktree} (h : Orderly s) (hphase : PhaseOk wt (s.phase w)) :
    Orderly (s.setWorktree w wt) := by
  refine ⟨fun w' => ?_, h.landed, h.head_mem⟩
  show PhaseOk (Function.update s.worktree w wt w') (s.phase w')
  by_cases hw : w' = w
  · subst hw
    rw [Function.update_self]
    exact hphase
  · rw [Function.update_of_ne hw]
    exact h.phase w'

omit [DecidableEq ω] in
/-- What a work tree has on disk is not looked at again. -/
theorem phaseOk_edit {wt : Worktree} {phase : Phase} (disk : Disk) (h : PhaseOk wt phase) :
    PhaseOk { wt with disk } phase := by
  cases phase with
  | idle => trivial
  | headRead head => trivial
  | collected head cts => exact ⟨⟨h.1.order, h.1.pathPrefix⟩, h.2⟩
  | created head new cts => exact h

/-- Moving the branch keeps the system in order, when nothing of the head is lost. -/
theorem land {head new : Commit} {cts : List Commitable} (h : Orderly s)
    (hphase : (⟨head, (s.worktree w).baseCommitId, new, cts⟩ : Landed).Kept) :
    Orderly (s.land w head new cts) := by
  unfold State.land
  split
  · exact h.moveTo trivial
  · next heq =>
    obtain rfl := not_not.mp heq
    refine ⟨fun w' => ?_, fun e he => ?_, List.mem_cons_self⟩
    · show PhaseOk (Function.update s.worktree w _ w') (Function.update s.phase w .idle w')
      by_cases hw : w' = w
      · subst hw
        rw [Function.update_self, Function.update_self]
        trivial
      · rw [Function.update_of_ne hw, Function.update_of_ne hw]
        exact h.phase w'
    · rcases List.mem_cons.mp he with rfl | he
      · exact hphase
      · exact h.landed e he

/-- **Whatever happens keeps the invariant.** -/
theorem next (h : Orderly s) (op : Op ω) : Orderly (step s op) := by
  cases op with
  | readHead w =>
    unfold step
    dsimp only
    split
    · exact h.moveTo trivial
    · exact h
  | collect w host paths allowBadSymlinks =>
    unfold step
    dsimp only
    split
    · refine h.moveToOk fun phase hok => ?_
      obtain ⟨cts, hcts, hok⟩ := bind_eq_ok_iff.mp hok
      obtain rfl := Except.ok.inj hok
      exact collected_of_commitables hcts
    · exact h
  | create w info =>
    have hphase := h.phase w
    unfold step
    dsimp only
    split
    · next head cts heq =>
      rw [heq] at hphase
      refine h.moveToOk fun phase hok => ?_
      obtain ⟨⟨new, cts'⟩, hnew, hok⟩ := bind_eq_ok_iff.mp hok
      obtain rfl := Except.ok.inj hok
      exact createCommit_kept hphase.1 hphase.2 hnew
    · exact h
  | land w =>
    have hphase := h.phase w
    unfold step
    dsimp only
    split
    · next head new cts heq =>
      rw [heq] at hphase
      exact h.land hphase
    · exact h
  | abandon w => exact h.moveTo trivial
  | edit w disk => exact h.setWorktree (phaseOk_edit disk (h.phase w))
  | command w wt =>
    unfold step
    dsimp only
    split
    · next heq =>
      refine h.setWorktree ?_
      rw [heq]
      trivial
    · exact h
  | moveHead head => exact ⟨h.phase, h.landed, List.mem_cons_self⟩

omit [DecidableEq ω] in
theorem initial (head : Commit) (worktree : ω → Worktree) : Orderly (initial head worktree) :=
  ⟨fun _ => trivial, fun _ he => absurd he List.not_mem_nil, List.mem_singleton.mpr rfl⟩

end Orderly

section Alone

open Replaced

end Alone

/-! ## Ancestors -/

/-- A commit, or an ancestor of it. -/
abbrev Ancestor : Commit → Commit → Prop := Relation.ReflTransGen fun p c => p ∈ c.parentIds

/-- All that was the head is among the ancestors of the head. -/
def AllAncestors (s : State ω) : Prop := ∀ c ∈ s.heads, Ancestor c s.head

/-- **What keeps the head**: a commit lands only if the head is among the ancestors of the base
commit of its work tree, or is the same commit as the one that lands; and the branch is moved
forwards only. -/
def Extends (s : State ω) : Op ω → Prop
  | .land w =>
    match s.phase w with
    | .created headCommitId newCommitId _ => headCommitId = s.head →
      newCommitId = s.head ∨ Ancestor s.head (s.worktree w).baseCommitId
    | _ => True
  | .moveHead head => Ancestor s.head head
  | _ => True

/-- The invariant of a branch that loses nothing. -/
structure Tracked (s : State ω) : Prop where
  orderly : Orderly s
  ancestors : AllAncestors s

omit [DecidableEq ω] in
/-- The head is set to what follows it, or what was the head is lost. -/
theorem allAncestors_setHead {s : State ω} (h : Tracked s) (head : Commit) :
    AllAncestors (s.setHead head) ↔ Ancestor s.head head := by
  constructor
  · exact fun hall => hall s.head (List.mem_cons_of_mem head h.orderly.head_mem)
  · intro hanc c hc
    rcases List.mem_cons.mp hc with rfl | hc
    · exact Relation.ReflTransGen.refl
    · exact (h.ancestors c hc).trans hanc

/-- A commit with one parent has that and its ancestors, and itself. -/
theorem ancestor_iff_of_parent {a base c : Commit} (h : c.parentIds = [base]) :
    Ancestor a c ↔ c = a ∨ Ancestor a base := by
  rw [Ancestor, Relation.ReflTransGen.cases_tail_iff]
  refine or_congr_right ⟨?_, fun hanc => ⟨base, hanc, by rw [h]; exact List.mem_singleton.mpr rfl⟩⟩
  rintro ⟨b, hanc, hb⟩
  rw [h] at hb
  obtain rfl := List.mem_singleton.mp hb
  exact hanc

omit [DecidableEq ω] in
/-- What does not touch the head. -/
theorem tracked_iff_of_eq {s s' : State ω} (h : Tracked s) (horderly : Orderly s')
    (hhead : s'.head = s.head) (hheads : s'.heads = s.heads) : Tracked s' ↔ True := by
  refine iff_true_intro ⟨horderly, ?_⟩
  unfold AllAncestors
  rw [hhead, hheads]
  exact h.ancestors

@[simp] theorem head_moveToOk (s : State ω) (w : ω) (result : Except GotErr Phase) :
    (s.moveToOk w result).head = s.head := by
  cases result <;> rfl

@[simp] theorem heads_moveToOk (s : State ω) (w : ω) (result : Except GotErr Phase) :
    (s.moveToOk w result).heads = s.heads := by
  cases result <;> rfl

/-- **A step keeps all ancestors if and only if it extends the head.** -/
theorem tracked_step_iff {s : State ω} (h : Tracked s) (op : Op ω) :
    Tracked (step s op) ↔ Extends s op := by
  have horderly := h.orderly.next op
  cases op with
  | readHead w =>
    refine tracked_iff_of_eq h horderly ?_ ?_ <;> (unfold step; dsimp only; split <;> rfl)
  | collect w host paths allowBadSymlinks =>
    refine tracked_iff_of_eq h horderly ?_ ?_ <;>
      (unfold step; dsimp only; split <;> first | rw [head_moveToOk] | rw [heads_moveToOk] | rfl)
  | create w info =>
    refine tracked_iff_of_eq h horderly ?_ ?_ <;>
      (unfold step; dsimp only; split <;> first | rw [head_moveToOk] | rw [heads_moveToOk] | rfl)
  | land w =>
    have hphase := h.orderly.phase w
    unfold step Extends at *
    dsimp only at *
    split
    · next head new cts heq =>
      rw [heq] at hphase horderly
      dsimp only at horderly
      unfold State.land at horderly ⊢
      split
      · next hne =>
        rw [if_pos hne] at horderly
        rw [tracked_iff_of_eq h horderly rfl rfl]
        exact iff_of_true trivial fun heq => absurd heq hne
      · next heq =>
        rw [if_neg heq] at horderly
        have hkept : new.parentIds = [(s.worktree w).baseCommitId] := hphase.parentIds
        rw [forall_prop_of_true (not_not.mp heq), ← ancestor_iff_of_parent hkept,
          ← allAncestors_setHead h]
        exact ⟨fun ht => ht.ancestors, fun hall => ⟨horderly, hall⟩⟩
    · exact iff_of_true h trivial
  | abandon w => exact tracked_iff_of_eq h horderly rfl rfl
  | edit w disk => exact tracked_iff_of_eq h horderly rfl rfl
  | command w wt =>
    refine tracked_iff_of_eq h horderly ?_ ?_ <;> (unfold step; dsimp only; split <;> rfl)
  | moveHead head =>
    show Tracked (s.setHead head) ↔ _
    rw [Extends, ← allAncestors_setHead h]
    exact ⟨fun ht => ht.ancestors, fun hall => ⟨horderly, hall⟩⟩

/-- **All that was the head stays among the ancestors of the head**, all along a run, if and only
if each commit that lands was made in a work tree whose base commit has the head among its
ancestors, and nothing else moves the branch backwards. -/
theorem allAncestors_iff (head : Commit) (worktree : ω → Worktree) (ops : List (Op ω)) :
    (∀ before after, ops = before ++ after →
        AllAncestors (Runs.run step (initial head worktree) before))
      ↔ Runs.Meets step Extends (initial head worktree) ops := by
  have hstart : Tracked (initial head worktree) := by
    refine ⟨Orderly.initial head worktree, fun c hc => ?_⟩
    obtain rfl := List.mem_singleton.mp hc
    exact Relation.ReflTransGen.refl
  rw [← Runs.forall_prefix_iff hstart fun s op h => tracked_step_iff h op]
  refine forall₃_congr fun before after _ => ⟨fun hall => ⟨?_, hall⟩, fun h => h.ancestors⟩
  exact Runs.invariant hstart.orderly (fun _ op h => h.next op) before

/-! ## A commit that is alone -/

/-- **While nothing else happens**, the steps are those of `got_worktree_commit`. -/
theorem run_alone {s : State ω} {w : ω} {host : Host} {paths : List (List Name)}
    {allowBadSymlinks : Bool} {info : CommitInfo} {newCommitId : Commit} {wt : Worktree}
    (hphase : s.phase w = .idle)
    (h : gotWorktreeCommit host (s.worktree w) s.head paths allowBadSymlinks info
      = .ok (newCommitId, wt)) :
    ∃ cts, Runs.run step s [.readHead w, .collect w host paths allowBadSymlinks, .create w info,
      .land w] = { s with
        head := newCommitId
        worktree := Function.update s.worktree w wt
        phase := Function.update s.phase w .idle
        landed := ⟨s.head, (s.worktree w).baseCommitId, newCommitId, cts⟩ :: s.landed
        heads := newCommitId :: s.heads } := by
  obtain ⟨cts, hcts, h⟩ := bind_eq_ok_iff.mp h
  obtain ⟨⟨new, cts'⟩, hnew, h⟩ := bind_eq_ok_iff.mp h
  obtain ⟨fileindex, hfileindex, h⟩ := bind_eq_ok_iff.mp h
  obtain ⟨rfl, rfl⟩ := Prod.mk.inj (Except.ok.inj h)
  refine ⟨cts', ?_⟩
  simp [Runs.run, step, hphase, State.moveToOk, State.moveTo, State.land, State.setHead,
    State.setWorktree, hcts, hnew, worktreeAfterCommit, updateAfterCommit_eq hfileindex]

end Got.Branch

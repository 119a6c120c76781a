import Got.Worktree.Commit
import Got.Worktree.Disk

/-!
# Installing files

A blob is installed in the work tree as a regular file (`install_blob`), or, if
the tree of a commit says so, as a symlink (`install_symlink`). A symlink that
leads out of the work tree is not made: a regular file with the target in it
takes its place, and is called a bad symlink.

Either way the directories on the way are made if need be, and what was at the
path is replaced. In both functions the path is given twice, below the root and
from the root of the disk, and where `install_symlink` makes directories it
takes the wrong one of these.

What matters to the callers is what is at the path in the end: a file with the
content of the blob and the executable bit it was given (`installBlob_node`),
or a symlink with the content as its target (`installSymlink_node`).
-/

namespace Got

def S_IRGRP : UInt32 := 0o040
def S_IROTH : UInt32 := 0o004

/-- The bits of a mode that `fchmod` sets. -/
def ALLPERMS : UInt32 := 0o7777

/-- **What stays the same in a work tree**: where it is, which directory of the
repository it shows, and the commit it is based on. -/
structure Checkout where
  rootNames : List Name
  pathPrefix : List Name
  baseCommitId : Commit

namespace Checkout

/-- The path of the work tree. -/
def rootPath (wt : Checkout) : Str := absPath wt.rootNames

/-- The path of a file on disk. -/
def ondiskPath (wt : Checkout) (path : RelPath) : Str := absPath (wt.rootNames ++ path.val)

end Checkout

/-! ## Making directories -/

namespace DiskTree

section

variable (now : Timespec)

/-- Make something new where there is nothing: what `mkdir(2)`, `symlink(2)`, and
`open(2)` with `O_CREAT | O_EXCL` have in common. -/
def create (t : DiskTree) (path : List Name) (sb : Inode) : Except GotErr DiskTree :=
  match h : t.node path with
  | some _ => .error (.errno .exist)
  | none =>
    if t.isBlocked path then .error (.errno .notdir)
    else if hdir : (t.node path.dropLast).any (fun d => d.node = .dir) then
      .ok (t.put path sb (exists_parent hdir) (FileTree.isEmpty_of_eq_none h))
    else .error (.errno .noent)

def mkdir (t : DiskTree) (path : List Name) : Except GotErr DiskTree :=
  t.create path ⟨.dir, 0o755, now, now, rwxPerms_and_fmt⟩

/-- `symlink(2)`. The target must not be empty. -/
def symlink (t : DiskTree) (path : List Name) (target : Bytes) : Except GotErr DiskTree :=
  if target = [] then .error (.errno .noent)
  else t.create path ⟨.symlink target, 0o755, now, now, rwxPerms_and_fmt⟩

/-- `make_parent_dirs`, of a path that is given in reverse. -/
def makeParentDirs (t : DiskTree) : List Name → Except GotErr DiskTree
  | [] => .error (.errno .exist)
  | _ :: parent =>
    match t.mkdir now parent.reverse with
    | .ok t => .ok t
    | .error e =>
      if e = .errno .noent then do
        let t ← t.makeParentDirs parent
        t.mkdir now parent.reverse
      else .error e

/-- `got_path_mkdir`: the directory, after its parents where they are missing. -/
def gotPathMkdir (t : DiskTree) (path : List Name) : Except GotErr DiskTree :=
  match t.mkdir now path with
  | .ok t => .ok t
  | .error e =>
    if e = .errno .noent then do
      let t ← t.makeParentDirs now path.reverse
      t.mkdir now path
    else .error e

/-- **`add_dir_on_disk`** -/
def addDirOnDisk (t : DiskTree) (path : List Name) : Except GotErr DiskTree :=
  match t.gotPathMkdir now path with
  | .ok t => .ok t
  | .error e =>
    if e = .errno .exist then
      match t.node path with
      | none => .error (.errno .noent)
      | some sb => if sb.node = .dir then .ok t else .error .fileObstructed
    else .error e

/-- `update_symlink` -/
def updateSymlink (t : DiskTree) (path : List Name) (target : Bytes) : Except GotErr DiskTree := do
  let t ← t.unlink path
  t.symlink now path target

end

end DiskTree

/-! ## Installing -/

/-- The permissions of a file that is installed. -/
def getOndiskPerms (executable : Bool) (stMode : UInt32) : UInt32 :=
  if executable then
    stMode ||| (S_IXUSR ||| (if stMode &&& S_IRGRP ≠ 0 then S_IXGRP else 0)
      ||| (if stMode &&& S_IROTH ≠ 0 then S_IXOTH else 0))
  else stMode &&& ~~~(S_IXUSR ||| S_IXGRP ||| S_IXOTH)

theorem allperms_and_fmt (mode : UInt32) : mode &&& ALLPERMS &&& S_IFMT = 0 := by
  rw [UInt32.and_assoc, show ALLPERMS &&& S_IFMT = 0 from rfl]
  exact UInt32.and_zero

/-- Why a file is installed: it is missing, or it is to be reverted, or neither; and whether
there may be a file that is not versioned. -/
structure InstallReason where
  restoringMissingFile : Bool := false
  revertingVersionedFile : Bool := false
  pathIsUnversioned : Bool := false

section Install

variable {σ : Type} (host : Host) (now : Timespec) (wt : Checkout)
  (progressCb : Status → RelPath → σ → Except GotErr σ) (why : InstallReason)

/-- The regular file that is made of a blob. -/
def installedFile (teMode stMode : UInt32) (content : Bytes) : Inode :=
  ⟨.file content, getOndiskPerms (teMode &&& S_IXUSR ≠ 0) stMode &&& ALLPERMS, now, now,
    allperms_and_fmt _⟩

/-- What is reported of a file that is installed. -/
def InstallReason.status (update : Bool) : Status :=
  if why.restoringMissingFile then .missing
  else if why.revertingVersionedFile then .revert
  else if update then .update
  else .add

/-- **`install_blob`** -/
def installBlob (t : DiskTree) (path : RelPath) (teMode stMode : UInt32) (content : Bytes)
    (installingBadSymlink : Bool) (s : σ) : Except GotErr (DiskTree × σ) :=
  let sb := installedFile now teMode stMode content
  match t.create path sb with
  | .ok t => do
    let s ← progressCb (why.status false) path s
    return (t, s)
  | .error e =>
    if e = .errno .noent then do
      let t ← t.addDirOnDisk now path.val.dropLast
      let t ← t.create path sb
      let s ← progressCb (why.status false) path s
      return (t, s)
    else if e = .errno .exist then
      if why.pathIsUnversioned then do
        let s ← progressCb .unversioned path s
        return (t, s)
      else if ¬(S_ISLNK stMode ∧ S_ISREG teMode) ∧ ¬S_ISREG stMode ∧ ¬installingBadSymlink then
        .error .fileObstructed
      else do
        let s ← progressCb (why.status true) path s
        let t ← if S_ISLNK stMode then t.unlink path else .ok t
        let t ← t.rename path sb
        return (t, s)
    else .error e

/-- `replace_existing_symlink`: a file in the place of the symlink is replaced too. -/
def replaceExistingSymlink (t : DiskTree) (path : RelPath) (content : Bytes) :
    Except GotErr DiskTree := do
  match ← t.lookup path with
  | none => .error (.errno .noent)
  | some sb =>
    match sb.node with
    | .dir => .error (.errno .isdir)
    | .symlink target =>
      if target = content then .ok t
      else t.updateSymlink now path (content.takeWhile (· ≠ 0))
    | _ => t.updateSymlink now path (content.takeWhile (· ≠ 0))

/-- Whether a blob cannot be installed as a symlink: its content, and the header in front of
it, do not fit in the buffer, or the target is bad. -/
def linkIsBad (path : RelPath) (id : Object) (content : Bytes) : Except GotErr Bool :=
  if PATH_MAX ≤ host.hdrlen id + content.length then .ok true
  else isBadSymlinkTarget (cString content) content.length (wt.ondiskPath path) wt.rootPath

/-- **`install_symlink`**: whether a regular file was installed in the place of the symlink
comes with the new disk. -/
def installSymlink (t : DiskTree) (path : RelPath) (id : Object) (content : Bytes) (s : σ) :
    Except GotErr (DiskTree × Bool × σ) := do
  let isBadSymlink ← linkIsBad host wt path id content
  if isBadSymlink then do
    let (t, s) ← installBlob now progressCb why t path GOT_DEFAULT_FILE_MODE
      GOT_DEFAULT_FILE_MODE content true s
    return (t, true, s)
  else
    match t.symlink now path (content.takeWhile (· ≠ 0)) with
    | .ok t => do
      let s ← progressCb (if why.revertingVersionedFile then .revert else .add) path s
      return (t, false, s)
    | .error e =>
      if e = .errno .exist then
        if why.pathIsUnversioned then do
          let s ← progressCb .unversioned path s
          return (t, false, s)
        else do
          let t ← replaceExistingSymlink now t path content
          let s ← progressCb (if why.revertingVersionedFile then .revert else .update) path s
          return (t, false, s)
      else if e = .errno .noent then do
        -- the path from the root of the disk is taken for one below the root of the work tree
        let t ← t.addDirOnDisk now (wt.rootNames ++ path.val.dropLast)
        let t ← t.symlink now path (content.takeWhile (· ≠ 0))
        return (t, false, s)
      else if e = .errno .notdir then .error .fileObstructed
      else .error e

end Install

/-! ## The executable bit -/

theorem and_S_IXUSR (mode : UInt32) : mode &&& S_IXUSR = 0 ∨ mode &&& S_IXUSR = S_IXUSR := by
  have h := BitVec.and_twoPow mode.toBitVec 6
  split at h
  · exact Or.inr (UInt32.toBitVec_inj.mp h)
  · exact Or.inl (UInt32.toBitVec_inj.mp h)

theorem or_and_S_IXUSR (a b : UInt32) : (a ||| b) &&& S_IXUSR = a &&& S_IXUSR ||| b &&& S_IXUSR :=
  UInt32.toBitVec_inj.mp BitVec.and_or_distrib_right

/-- **A file that is installed is executable** if that was asked for. -/
theorem installedFile_xusr (now : Timespec) (teMode stMode : UInt32) (content : Bytes) :
    (installedFile now teMode stMode content).mode &&& S_IXUSR = teMode &&& S_IXUSR := by
  show (S_IFREG ||| getOndiskPerms (teMode &&& S_IXUSR ≠ 0) stMode &&& ALLPERMS) &&& S_IXUSR
    = teMode &&& S_IXUSR
  rw [or_and_S_IXUSR, show S_IFREG &&& S_IXUSR = 0 from rfl, UInt32.zero_or, UInt32.and_assoc,
    show ALLPERMS &&& S_IXUSR = S_IXUSR from rfl, getOndiskPerms]
  rcases and_S_IXUSR teMode with h | h
  · rw [h, if_neg (by decide), UInt32.and_assoc,
      show ~~~(S_IXUSR ||| S_IXGRP ||| S_IXOTH) &&& S_IXUSR = 0 from rfl]
    exact UInt32.and_zero
  · rw [h, if_pos (by decide), or_and_S_IXUSR, or_and_S_IXUSR, or_and_S_IXUSR,
      show S_IXUSR &&& S_IXUSR = S_IXUSR from rfl]
    rcases and_S_IXUSR stMode with h1 | h1 <;> rw [h1] <;> split <;> split <;> rfl

/-! ## What is there in the end -/

namespace DiskTree

variable {t t' : DiskTree} {path : List Name}

/-- What was created is there. -/
theorem create_node {sb : Inode} (h : t.create path sb = .ok t') : t'.node path = some sb := by
  unfold create at h
  split at h
  · cases h
  split at h
  · cases h
  split at h
  · obtain rfl := Except.ok.inj h
    exact FileTree.put_node_self _ _
  · cases h

/-- Something new is made only where there is nothing. -/
theorem create_none {sb : Inode} (h : t.create path sb = .ok t') : t.node path = none := by
  unfold create at h
  split at h
  · exact nomatch h
  · rename_i hnone
    exact hnone

/-- A symlink that was made is there. -/
theorem symlink_node {now : Timespec} {target : Bytes} (h : t.symlink now path target = .ok t') :
    ∃ sb, t'.node path = some sb ∧ sb.node = .symlink target := by
  unfold symlink at h
  split at h
  · exact nomatch h
  · exact ⟨_, create_node h, rfl⟩

/-- A symlink is made with a target, where nothing was. -/
theorem symlink_target {now : Timespec} {target : Bytes}
    (h : t.symlink now path target = .ok t') : target ≠ [] ∧ t.node path = none := by
  unfold symlink at h
  split at h
  · exact nomatch h
  · rename_i hne
    exact ⟨hne, create_none h⟩

/-- Only where nothing is can a directory be missing on the way. -/
theorem symlink_eq_noent {now : Timespec} {target : Bytes} (hne : target ≠ [])
    (h : t.symlink now path target = .error (.errno .noent)) : t.node path = none := by
  unfold symlink create at h
  rw [if_neg hne] at h
  split at h
  · exact nomatch h
  · rename_i hnone
    exact hnone

theorem updateSymlink_node {now : Timespec} {target : Bytes}
    (h : t.updateSymlink now path target = .ok t') :
    ∃ sb, t'.node path = some sb ∧ sb.node = .symlink target := by
  obtain ⟨t1, -, h⟩ := bind_eq_ok_iff.mp h
  exact symlink_node h

end DiskTree

section InstallNode

variable {σ : Type} {host : Host} {now : Timespec} {wt : Checkout}
  {progressCb : Status → RelPath → σ → Except GotErr σ} {why : InstallReason}
  {t t' : DiskTree} {path : RelPath} {content : Bytes} {s s' : σ}

/-- **A blob that was installed as a file is there**, as long as no file may be there that
is not versioned. -/
theorem installBlob_node {teMode stMode : UInt32} {installingBadSymlink : Bool}
    (hwhy : why.pathIsUnversioned = false)
    (h : installBlob now progressCb why t path teMode stMode content installingBadSymlink s
      = .ok (t', s')) :
    t'.node path = some (installedFile now teMode stMode content) := by
  unfold installBlob at h
  dsimp only at h
  split at h
  · rename_i t1 ht1
    obtain ⟨s1, -, h⟩ := bind_eq_ok_iff.mp h
    cases h
    exact DiskTree.create_node ht1
  rename_i e _
  split at h
  · -- after the directories were made
    obtain ⟨t1, -, h⟩ := bind_eq_ok_iff.mp h
    obtain ⟨t2, ht2, h⟩ := bind_eq_ok_iff.mp h
    obtain ⟨s1, -, h⟩ := bind_eq_ok_iff.mp h
    cases h
    exact DiskTree.create_node ht2
  split at h
  · rw [hwhy, if_neg Bool.false_ne_true] at h
    split at h
    · exact nomatch h
    · obtain ⟨s1, -, h⟩ := bind_eq_ok_iff.mp h
      split at h
      · obtain ⟨t1, -, h⟩ := bind_eq_ok_iff.mp h
        obtain ⟨t2, ht2, h⟩ := bind_eq_ok_iff.mp h
        cases h
        exact DiskTree.rename_node ht2
      · obtain ⟨t1, -, h⟩ := bind_eq_ok_iff.mp h
        obtain ⟨t2, ht2, h⟩ := bind_eq_ok_iff.mp h
        cases h
        exact DiskTree.rename_node ht2
  · exact nomatch h

/-- The symlink that a blob stands for is there already. -/
def LinkIsThere (t : DiskTree) (path : RelPath) (content : Bytes) : Prop :=
  ∃ sb, t.node path = some sb ∧ sb.node = .symlink content

/-- **A blob was installed as a symlink**: the content is the target, up to the first
zero. -/
def LinkInstalled (t t' : DiskTree) (path : RelPath) (content : Bytes) : Prop :=
  ∃ sb target, t'.node path = some sb ∧ sb.node = .symlink target
    ∧ (target = content ↔ 0 ∉ content ∨ LinkIsThere t path content)

theorem takeWhile_eq_self_iff_zero (content : Bytes) :
    content.takeWhile (· ≠ 0) = content ↔ 0 ∉ content := by
  rw [List.takeWhile_eq_self_iff]
  constructor
  · intro h h0
    exact absurd (h 0 h0) (by decide)
  · intro h c hc
    exact decide_eq_true fun h0 => h (h0 ▸ hc)

theorem linkInstalled_of_new {sb : Inode} (hsb : t'.node path = some sb)
    (hlink : sb.node = .symlink (content.takeWhile (· ≠ 0)))
    (hnew : ¬LinkIsThere t path content) : LinkInstalled t t' path content :=
  ⟨sb, _, hsb, hlink, by rw [takeWhile_eq_self_iff_zero, or_iff_left hnew]⟩

theorem linkInstalled_of_update
    (h : t.updateSymlink now path (content.takeWhile (· ≠ 0)) = .ok t')
    (hnew : ¬LinkIsThere t path content) : LinkInstalled t t' path content := by
  obtain ⟨sb, hsb, hlink⟩ := DiskTree.updateSymlink_node h
  exact linkInstalled_of_new hsb hlink hnew

/-- Replacing a symlink installs the new one. -/
theorem replaceExistingSymlink_installed (h : replaceExistingSymlink now t path content = .ok t') :
    LinkInstalled t t' path content := by
  unfold replaceExistingSymlink at h
  obtain ⟨o, ho, h⟩ := bind_eq_ok_iff.mp h
  obtain rfl := DiskTree.lookup_eq_ok ho
  cases hold : t.node path with
  | none =>
    rw [hold] at h
    exact nomatch h
  | some old =>
    rw [hold] at h
    dsimp only at h
    have hthere (hno : old.node ≠ .symlink content) : ¬LinkIsThere t path content := by
      rintro ⟨sb, hsb, hlink⟩
      rw [hold, Option.some_inj] at hsb
      exact hno (hsb ▸ hlink)
    cases hnode : old.node with
    | dir =>
      rw [hnode] at h
      exact nomatch h
    | symlink target =>
      rw [hnode] at h
      dsimp only at h
      split at h
      · -- nothing is to be done
        rename_i htarget
        obtain rfl := Except.ok.inj h
        exact ⟨old, target, hold, hnode, iff_of_true htarget (Or.inr ⟨old, hold, htarget ▸ hnode⟩)⟩
      · rename_i htarget
        exact linkInstalled_of_update h (hthere fun h' => htarget (by
          rw [hnode] at h'
          exact Node.symlink.inj h'))
    | _ =>
      rw [hnode] at h
      exact linkInstalled_of_update h (hthere (by rw [hnode]; exact fun h' => (nomatch h')))

/-- **What `install_symlink` leaves behind**: a regular file if the symlink is bad, or else
the symlink. -/
theorem installSymlink_node {id : Object} {isBadSymlink : Bool}
    (hwhy : why.pathIsUnversioned = false)
    (h : installSymlink host now wt progressCb why t path id content s
      = .ok (t', isBadSymlink, s')) :
    linkIsBad host wt path id content = .ok isBadSymlink ∧
      if isBadSymlink then
        t'.node path
          = some (installedFile now GOT_DEFAULT_FILE_MODE GOT_DEFAULT_FILE_MODE content)
      else LinkInstalled t t' path content := by
  unfold installSymlink at h
  obtain ⟨bad, hbad, h⟩ := bind_eq_ok_iff.mp h
  split at h
  · rename_i hb
    obtain ⟨⟨t1, s1⟩, ht1, h⟩ := bind_eq_ok_iff.mp h
    cases h
    rw [hb] at hbad
    exact ⟨hbad, installBlob_node hwhy ht1⟩
  rename_i hb
  rw [Bool.not_eq_true] at hb
  rw [hb] at hbad
  split at h
  · rename_i t1 ht1
    obtain ⟨s1, -, h⟩ := bind_eq_ok_iff.mp h
    cases h
    obtain ⟨sb, hsb, hlink⟩ := DiskTree.symlink_node ht1
    refine ⟨hbad, linkInstalled_of_new hsb hlink ?_⟩
    rintro ⟨old, hold, -⟩
    exact absurd (hold.symm.trans (DiskTree.symlink_target ht1).2) (Option.some_ne_none old)
  rename_i e he
  split at h
  · rw [hwhy, if_neg Bool.false_ne_true] at h
    obtain ⟨t1, ht1, h⟩ := bind_eq_ok_iff.mp h
    obtain ⟨s1, -, h⟩ := bind_eq_ok_iff.mp h
    cases h
    exact ⟨hbad, replaceExistingSymlink_installed ht1⟩
  split at h
  · rename_i hnoent
    obtain ⟨t1, ht1, h⟩ := bind_eq_ok_iff.mp h
    obtain ⟨t2, ht2, h⟩ := bind_eq_ok_iff.mp h
    cases h
    obtain ⟨sb, hsb, hlink⟩ := DiskTree.symlink_node ht2
    refine ⟨hbad, linkInstalled_of_new hsb hlink ?_⟩
    rintro ⟨old, hold, -⟩
    rw [hnoent] at he
    have hnone := DiskTree.symlink_eq_noent (DiskTree.symlink_target ht2).1 he
    exact absurd (hold.symm.trans hnone) (Option.some_ne_none old)
  split at h
  · exact nomatch h
  · exact nomatch h

end InstallNode

end Got

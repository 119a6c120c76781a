import Got.Diff3.Merge
import Got.Worktree.Install

/-!
# Merging into the work tree

A blob is merged into a file of the work tree (`merge_blob`, `merge_file`), or the target of a
symlink into a symlink (`merge_symlink`), with the base blob as the original, if there is one.

How the file on disk is read depends on the mode the entry has, and not on what is there: with
that of a symlink its target is read, and otherwise the file it leads to. What is put in its
place is a regular file in either case.

If the blob is what is on disk, the content stays as it is (`mergeFile_self`), and a symlink is
not touched (`mergeSymlink_self`).
-/

namespace Got

/-- The id of a commit in hexadecimal digits. -/
abbrev IdStr := { s : Bytes // s.length = 2 * SHA1_DIGEST_LENGTH }

namespace DiskTree

/-- What `open(2)` and `read(2)` give. A symlink is followed. -/
def readFile (t : DiskTree) (followed : RelPath → Except GotErr Bytes) (path : RelPath) :
    Except GotErr Bytes := do
  match ← t.lookup path with
  | none => .error (.errno .noent)
  | some sb =>
    match sb.node with
    | .symlink _ => followed path
    | _ => sb.data

/-- `readlink(2)`, of as much as there is room for. -/
def readTarget (t : DiskTree) (path : List Name) : Except GotErr Bytes := do
  match ← t.lookup path with
  | none => .error (.errno .noent)
  | some sb =>
    match sb.node with
    | .symlink target => .ok (target.take PATH_MAX)
    | _ => .error (.errno .inval)

end DiskTree

section Merge

variable {σ : Type} (host : Host) (now : Timespec) (followed : RelPath → Except GotErr Bytes)
  (progressCb : Status → RelPath → σ → Except GotErr σ)

/-- The regular file that a merge makes. -/
def mergedFile (stMode : UInt32) (content : Bytes) : Inode :=
  ⟨.file content, stMode &&& ALLPERMS, now, now, allperms_and_fmt _⟩

/-- The second derived file: what is on disk, or the target of a symlink. -/
def mergeOndisk (t : DiskTree) (path : RelPath) (stMode : UInt32) : Except GotErr Bytes :=
  if S_ISLNK stMode then t.readTarget path else t.readFile followed path

/-- **`merge_file`**: whether local changes are subsumed comes with the new disk. -/
def mergeFile (t : DiskTree) (blobOrig : Option Bytes) (path : RelPath) (stMode : UInt32)
    (deriv labelOrig labelDeriv : Bytes) (s : σ) : Except GotErr (Bool × DiskTree × σ) := do
  let ondisk ← mergeOndisk followed t path stMode
  let (overlapcnt, merged) ← gotMergeDiff3 deriv (blobOrig.getD []) ondisk (some labelDeriv)
    (some labelOrig) none
  let s ← progressCb (if overlapcnt > 0 then .conflict else .merge) path s
  let t ← t.rename path (mergedFile now stMode merged)
  return (overlapcnt = 0 ∧ deriv = merged, t, s)

/-- **`merge_blob`** -/
def mergeBlob (t : DiskTree) (blobOrig : Option Bytes) (path : RelPath) (stMode : UInt32)
    (labelOrig blobDeriv : Bytes) (idStr : IdStr) (s : σ) : Except GotErr (Bool × DiskTree × σ) :=
  mergeFile now followed progressCb t blobOrig path stMode blobDeriv labelOrig (mergedLabel idStr) s

/-- `got_object_blob_read_to_str`: nothing is allocated if there is nothing to read. -/
def gotObjectBlobReadToStr (id : Object) (content : Bytes) : Except GotErr Bytes :=
  if host.hdrlen id + content.length = 0 then .error .outOfMap
  else .ok (content.takeWhile (· ≠ 0))

/-- The target of the original, if there is one. -/
def ancestorTarget (blobOrig : Option (Object × Bytes)) : Except GotErr (Option Bytes) :=
  match blobOrig with
  | none => .ok none
  | some (id, content) => do
    let target ← gotObjectBlobReadToStr host id content
    return some target

/-- **`merge_symlink`**, with the original as an id and the content of the blob. -/
def mergeSymlink (t : DiskTree) (blobOrig : Option (Object × Bytes)) (path : RelPath)
    (labelOrig derivTarget : Bytes) (idStr : IdStr) (s : σ) : Except GotErr (DiskTree × σ) := do
  let target ← t.readlink path
  let ancestor ← ancestorTarget host blobOrig
  let haveLocalChange := ancestor ≠ some target
  let haveIncomingChange := ancestor ≠ some derivTarget
  let conflict : Except GotErr (DiskTree × σ) := do
    let t ← installSymlinkConflict now idStr t path (some derivTarget)
      (ancestor.map (labelOrig, ·)) target
    let s ← progressCb .conflict path s
    return (t, s)
  if ¬haveLocalChange ∧ ¬haveIncomingChange then
    if ancestor.isSome ∨ derivTarget = target then do
      let s ← progressCb .merge path s
      return (t, s)
    else conflict
  else if ¬haveLocalChange ∧ haveIncomingChange then do
    let t ← t.updateSymlink now path derivTarget
    let s ← progressCb .merge path s
    return (t, s)
  else if haveLocalChange ∧ haveIncomingChange then
    if derivTarget = target then do
      let s ← progressCb .merge path s
      return (t, s)
    else conflict
  else .ok (t, s)

end Merge

/-! ## Merging what is there -/

section Same

variable {σ : Type} {host : Host} {now : Timespec} {followed : RelPath → Except GotErr Bytes}
  {progressCb : Status → RelPath → σ → Except GotErr σ} {t t' : DiskTree} {path : RelPath}
  {sb : Inode} {s s' : σ} {stMode : UInt32} {blobOrig : Option Bytes}

theorem mergedFile_isReg (now : Timespec) (stMode : UInt32) (content : Bytes) :
    S_ISREG (mergedFile now stMode content).mode := (Inode.isReg_iff _).mpr ⟨content, rfl⟩

/-- **A merge leaves a regular file behind.** -/
theorem mergeFile_node {deriv labelOrig labelDeriv : Bytes} {subsumed : Bool}
    (h : mergeFile now followed progressCb t blobOrig path stMode deriv labelOrig labelDeriv s
      = .ok (subsumed, t', s')) :
    ∃ merged, t'.node path = some (mergedFile now stMode merged) := by
  obtain ⟨ondisk, -, h⟩ := bind_eq_ok_iff.mp h
  obtain ⟨⟨overlapcnt, merged⟩, -, h⟩ := bind_eq_ok_iff.mp h
  obtain ⟨s1, -, h⟩ := bind_eq_ok_iff.mp h
  obtain ⟨t1, ht1, h⟩ := bind_eq_ok_iff.mp h
  cases h
  exact ⟨merged, DiskTree.rename_node ht1⟩

/-- The labels fit in their buffers. -/
theorem conflictMarks_label (idStr idStr' : IdStr) : ∃ marks,
    conflictMarks (some (mergedLabel idStr)) (some (baseLabel idStr')) none = .ok marks := by
  have hmark {marker label : Bytes} (h : marker.length + label.length < 200) :
      conflictMark marker (some label) = .ok (marker ++ (text " " ++ label)) := by
    unfold conflictMark
    refine if_neg ?_
    rw [Option.map_some, Option.getD_some, List.length_append, List.length_append,
      show (text " ").length = 1 from rfl, PATH_MAX]
    omega
  have hlen (s : IdStr) : s.val.length = 40 := s.property
  have hmerged : (mergedLabel idStr).length < 100 := by
    rw [mergedLabel, List.length_append, List.length_append, hlen,
      show (text "merged change").length = 13 from rfl, show (text ": commit ").length = 9 from rfl]
    omega
  have hbase : (baseLabel idStr').length < 100 := by
    rw [baseLabel, List.length_append, List.length_append, hlen,
      show (text "3-way merge base").length = 16 from rfl,
      show (text ": commit ").length = 9 from rfl]
    omega
  have h7 (marker : UInt8) : (List.replicate 7 marker).length = 7 := List.length_replicate
  unfold conflictMarks
  rw [hmark (by rw [GOT_DIFF_CONFLICT_MARKER_BEGIN, h7]; omega), ok_bind,
    hmark (by rw [GOT_DIFF_CONFLICT_MARKER_ORIG, h7]; omega), ok_bind]
  exact ⟨_, rfl⟩

/-- A file can be put in the place of another one. -/
theorem DiskTree.rename_eq {old : Inode} (hold : t.node path = some old) (hdir : old.node ≠ .dir) :
    ∃ t', t.rename path sb = .ok t' := by
  have hparent : (t.node path.val.dropLast).any (fun d => d.node = .dir) := by
    obtain ⟨d, hd, hdir⟩ := FileTree.isDir_of_isPrefix (t := t) (by rw [hold]; rfl)
      (List.dropLast_prefix path.val) fun h => by
        have hlen := congrArg List.length h
        rw [List.length_dropLast] at hlen
        have hpos := List.length_pos_iff.mpr path.property
        omega
    rw [hd]
    exact hdir
  have hempty : t.IsEmpty path := FileTree.isEmpty_of_not_isDir hold (decide_eq_false hdir)
  unfold rename
  rw [if_neg (by rw [isBlocked_eq_false hold]; exact Bool.false_ne_true), dif_pos hparent]
  refine ⟨_, dif_pos ⟨?_, hempty⟩⟩
  rw [hold]
  exact decide_eq_true hdir

theorem DiskTree.lookup_eq (hsb : t.node path = some sb) : t.lookup path = .ok (some sb) := by
  unfold lookup
  rw [if_neg (by rw [isBlocked_eq_false hsb]; exact Bool.false_ne_true), hsb]

/-- **A file with the content of the blob** is replaced by one with the same content, if the
entry is not that of a symlink. -/
theorem mergeBlob_self {content : Bytes} {idStr idStr' : IdStr}
    (hcb : ∀ status path s, ∃ s', progressCb status path s = .ok s')
    (hsb : t.node path = some sb) (hnode : sb.node = .file content) (hmode : ¬S_ISLNK stMode) :
    ∃ t' s', mergeBlob now followed progressCb t blobOrig path stMode (baseLabel idStr') content
      idStr s = .ok (true, t', s') ∧ t'.node path = some (mergedFile now stMode content) := by
  have hondisk : mergeOndisk followed t path stMode = .ok content := by
    unfold mergeOndisk DiskTree.readFile
    rw [if_neg hmode, DiskTree.lookup_eq hsb, ok_bind]
    dsimp only
    rw [hnode]
    dsimp only
    rw [Inode.data, hnode]
  obtain ⟨marks, hmarks⟩ := conflictMarks_label idStr idStr'
  obtain ⟨s', hs'⟩ := hcb .merge path s
  obtain ⟨t', ht'⟩ : ∃ t', t.rename path (mergedFile now stMode content) = .ok t' :=
    DiskTree.rename_eq hsb (by rw [hnode]; exact fun h => (nomatch h))
  refine ⟨t', s', ?_, DiskTree.rename_node ht'⟩
  unfold mergeBlob mergeFile
  rw [hondisk, ok_bind, gotMergeDiff3_self _ _ hmarks, ok_bind]
  dsimp only
  rw [if_neg (lt_irrefl 0), hs', ok_bind, ht', ok_bind, decide_eq_true ⟨rfl, rfl⟩]
  rfl

/-- With the mode of a symlink a file cannot be merged. -/
theorem mergeBlob_error {content deriv : Bytes} {labelOrig : Bytes} {idStr : IdStr}
    (hsb : t.node path = some sb) (hnode : sb.node = .file content) (hmode : S_ISLNK stMode) :
    mergeBlob now followed progressCb t blobOrig path stMode labelOrig deriv idStr s
      = .error (.errno .inval) := by
  have hondisk : mergeOndisk followed t path stMode = .error (.errno .inval) := by
    unfold mergeOndisk DiskTree.readTarget
    rw [if_pos hmode, DiskTree.lookup_eq hsb, ok_bind]
    dsimp only
    rw [hnode]
  unfold mergeBlob mergeFile
  rw [hondisk, error_bind]

/-- **A symlink with the target of the blob** is left alone, if its original can be read. -/
theorem mergeSymlink_self {blobOrig : Option (Object × Bytes)} {target labelOrig : Bytes}
    {idStr : IdStr} (hcb : ∀ status path s, ∃ s', progressCb status path s = .ok s')
    (hsb : t.node path = some sb) (hnode : sb.node = .symlink target)
    (hlen : target.length < PATH_MAX) {ancestor : Option Bytes}
    (hancestor : ancestorTarget host blobOrig = .ok ancestor) :
    ∃ s', mergeSymlink host now progressCb t blobOrig path labelOrig target idStr s
      = .ok (t, s') := by
  have hread : t.readlink path = .ok target := by
    unfold DiskTree.readlink
    rw [DiskTree.lookup_eq hsb, ok_bind]
    dsimp only
    rw [hnode]
    exact if_neg (not_le.mpr hlen)
  obtain ⟨s', hs'⟩ := hcb .merge path s
  refine ⟨s', ?_⟩
  unfold mergeSymlink
  rw [hread, ok_bind, hancestor, ok_bind]
  dsimp only
  by_cases hsame : ancestor = some target
  · rw [if_pos ⟨not_not.mpr hsame, not_not.mpr hsame⟩, if_pos (Or.inr rfl), hs', ok_bind]
    rfl
  · rw [if_neg fun h => h.1 hsame, if_neg fun h => h.1 hsame, if_pos ⟨hsame, hsame⟩, if_pos rfl,
      hs', ok_bind]
    rfl

end Same

end Got

import Got.CString
import Got.Lib.FileTree
import Got.Worktree.Status

/-!
# Changing the disk

Below the root of a work tree the disk is a tree: whatever is there is in a
directory. The calls to the system that change it are here, and what the code
makes of them to take a file away with the directories this leaves empty
(`remove_ondisk_file`), and to put a file with conflict markers in the place of
a symlink (`install_symlink_conflict`).

A symlink on the way to a path is not followed. It is like a file there.
-/

namespace Got

/-- **The disk below the root of a work tree**, as a tree. -/
abbrev DiskTree := FileTree Name Inode (fun sb => sb.node = .dir)

/-- A directory, and a machine, for examples. -/
def someDir : Inode := ⟨.dir, 0o755, ⟨1, 0⟩, ⟨1, 0⟩, rwxPerms_and_fmt⟩

/-- A host that makes headers of eight bytes. -/
def someHost : Host := ⟨fun _ => 8, fun _ => []⟩

namespace DiskTree

/-! ## Calls to the system -/

/-- Something on the way to a path is not a directory. -/
def isBlocked (t : DiskTree) (path : List Name) : Bool :=
  path.inits.any (fun q => q ≠ path ∧ (t.node q).any (fun sb => sb.node ≠ .dir))

/-- What is at a path, if the path leads through directories. -/
def lookup (t : DiskTree) (path : List Name) : Except GotErr (Option Inode) :=
  if t.isBlocked path then .error (.errno .notdir) else .ok (t.node path)

/-- `readlink(2)` into a buffer of `PATH_MAX` bytes, and the zero that the callers put
behind the target. -/
def readlink (t : DiskTree) (path : List Name) : Except GotErr Bytes := do
  match ← t.lookup path with
  | none => .error (.errno .noent)
  | some sb =>
    match sb.node with
    | .symlink target => if PATH_MAX ≤ target.length then .error .outOfMap else .ok target
    | _ => .error (.errno .inval)

/-- `unlink(2)` -/
def unlink (t : DiskTree) (path : List Name) : Except GotErr DiskTree :=
  if t.isBlocked path then .error (.errno .notdir)
  else
    match h : t.node path with
    | none => .error (.errno .noent)
    | some sb =>
      if hdir : sb.node = .dir then .error (.errno .isdir)
      else .ok (t.erase path (FileTree.isEmpty_of_not_isDir h (decide_eq_false hdir)))

/-- `rmdir(2)` -/
def rmdir (t : DiskTree) (path : List Name) : Except GotErr DiskTree :=
  match t.node path with
  | none => .error (.errno .noent)
  | some sb =>
    if sb.node ≠ .dir then .error (.errno .notdir)
    else if h : t.IsEmpty path then .ok (t.erase path h)
    else .error (.errno .notempty)

/-- A directory in which a file can be put. -/
theorem exists_parent {t : DiskTree} {path : List Name}
    (h : (t.node path.dropLast).any (fun d => d.node = .dir)) :
    ∃ d, t.node path.dropLast = some d ∧ decide (d.node = .dir) = true :=
  (Option.any_eq_true _ _).mp h

/-- `rename(2)` of a file that is not in the tree to a path. -/
def rename (t : DiskTree) (path : List Name) (sb : Inode) : Except GotErr DiskTree :=
  if t.isBlocked path then .error (.errno .notdir)
  else if hdir : (t.node path.dropLast).any (fun d => d.node = .dir) then
    if h : (t.node path).all (fun old => old.node ≠ .dir) ∧ t.IsEmpty path then
      .ok (t.put path sb (exists_parent hdir) h.2)
    else .error (.errno .isdir)
  else .error (.errno .noent)

/-! ## Taking a file away -/

/-- The loop of `remove_ondisk_file`, from a path that is given in reverse. It ends at a
directory that is not empty, or with the root, which is the last one to be removed. -/
def removeParents (t : DiskTree) : List Name → Except GotErr DiskTree
  | [] => .ok t
  | _ :: parent =>
    match t.rmdir parent.reverse with
    | .error e => if e = .errno .notempty then .ok t else .error e
    | .ok t => if parent = [] then .ok t else t.removeParents parent

/-- **`remove_ondisk_file`** -/
def removeOndiskFile (t : DiskTree) (path : RelPath) : Except GotErr DiskTree :=
  match t.unlink path with
  | .error e => if e = .errno .noent then .ok t else .error e
  | .ok t => t.removeParents path.val.reverse

end DiskTree

/-! ## Conflicts of symlinks -/

section SymlinkConflict

variable (now : Timespec) (idStr : Bytes)

/-- The labels in front of which the conflict markers stand. -/
def mergedLabel : Bytes := text "merged change" ++ text ": commit " ++ idStr
/-- The label of the common version in a conflict. -/
def baseLabel : Bytes := text "3-way merge base" ++ text ": commit " ++ idStr

/-- **The file that stands for a symlink in conflict.** The targets are strings of
C. -/
def symlinkConflict (derivTarget : Option Bytes) (orig : Option (Bytes × Bytes))
    (localTarget : Bytes) : Bytes :=
  let str (target : Bytes) := target.takeWhile (· ≠ 0)
  GOT_DIFF_CONFLICT_MARKER_BEGIN ++ text " " ++ mergedLabel idStr ++ [0x0a]
    ++ (derivTarget.map str).getD (text "(symlink was deleted)") ++ [0x0a]
    ++ (orig.map (fun (label, target) => label ++ [0x0a] ++ str target ++ [0x0a])).getD []
    ++ GOT_DIFF_CONFLICT_MARKER_SEP ++ [0x0a]
    ++ str localTarget ++ [0x0a]
    ++ GOT_DIFF_CONFLICT_MARKER_END ++ [0x0a]

/-- **`install_symlink_conflict`** -/
def installSymlinkConflict (t : DiskTree) (path : RelPath) (derivTarget : Option Bytes)
    (orig : Option (Bytes × Bytes)) (localTarget : Bytes) : Except GotErr DiskTree := do
  let t ← t.unlink path
  t.rename path ⟨.file (symlinkConflict idStr derivTarget orig localTarget), 0o644, now, now,
    rwPerms_and_fmt⟩

end SymlinkConflict

/-! ## What the operations do -/

namespace DiskTree

variable {t : DiskTree} {path : List Name}

/-- What is there is not blocked. -/
theorem isBlocked_eq_false {sb : Inode} (h : t.node path = some sb) : t.isBlocked path = false := by
  unfold isBlocked
  rw [List.any_eq_false]
  intro q hq hblocked
  rw [decide_eq_true_iff, Option.any_eq_true] at hblocked
  obtain ⟨hne, sb', hq', hnot⟩ := hblocked
  obtain ⟨d, hd, hdir⟩ := FileTree.isDir_of_isPrefix (t := t) (by rw [h]; rfl)
    ((List.mem_inits q path).mp hq) hne
  rw [hq', Option.some_inj] at hd
  subst hd
  exact of_decide_eq_true hnot (of_decide_eq_true hdir)

/-- A file that is there can be taken away. -/
theorem unlink_eq {sb : Inode} (h : t.node path = some sb) (hdir : sb.node ≠ .dir) :
    ∃ hempty : t.IsEmpty path, t.unlink path = .ok (t.erase path hempty) := by
  refine ⟨FileTree.isEmpty_of_not_isDir h (decide_eq_false hdir), ?_⟩
  unfold unlink
  rw [if_neg (by rw [isBlocked_eq_false h]; exact Bool.false_ne_true)]
  split
  · rename_i hnone
    exact absurd (h.symm.trans hnone) (Option.some_ne_none sb)
  · rename_i sb' hsb
    obtain rfl := Option.some_inj.mp (h.symm.trans hsb)
    rw [dif_neg hdir]

/-- **The loop prunes.** Whatever is on the way to the path is a directory. -/
theorem removeParents_eq (t : DiskTree) (rev : List Name)
    (hway : ∀ q, q <+: rev.reverse → q ≠ rev.reverse → ∃ d, t.node q = some d ∧ d.node = .dir) :
    t.removeParents rev = .ok (t.prune rev) := by
  induction rev generalizing t with
  | nil => rfl
  | cons a up ih =>
    rw [List.reverse_cons] at hway
    have hlt (q : List Name) (hq : q <+: up.reverse) : q ≠ up.reverse ++ [a] := by
      rintro rfl
      exact absurd hq.length_le (by simp)
    obtain ⟨d, hd, hdir⟩ := hway up.reverse (List.prefix_append _ _) (hlt _ List.prefix_rfl)
    rw [removeParents, FileTree.prune, rmdir, hd]
    dsimp only
    rw [if_neg (not_not.mpr hdir)]
    by_cases h : t.IsEmpty up.reverse
    · rw [dif_pos h, dif_pos h]
      dsimp only
      split
      · rename_i hup
        subst hup
        rfl
      · refine ih _ fun q hq hne => ?_
        rw [FileTree.erase_node_of_ne h hne]
        exact hway q (hq.trans (List.prefix_append _ _)) (hlt q hq)
    · rw [dif_neg h, dif_neg h]
      exact if_pos rfl

/-- **A file is taken away with the directories that are left empty.** Everything
else stays; but the root is such a directory too. -/
theorem removeOndiskFile_spec {path : RelPath} {sb : Inode} (h : t.node path = some sb)
    (hdir : sb.node ≠ .dir) :
    ∃ t', t.removeOndiskFile path = .ok t' ∧ ∀ q, t'.node q
      = if q <+: path.val ∧ t.OnlyWay q path.val then none else t.node q := by
  obtain ⟨hempty, hunlink⟩ := unlink_eq h hdir
  have hway (q : List Name) (hq : q <+: path.val) (hne : q ≠ path.val) :
      ∃ d, (t.erase path hempty).node q = some d ∧ d.node = .dir := by
    obtain ⟨d, hd, hdir⟩ := FileTree.isDir_of_isPrefix (t := t) (by rw [h]; rfl) hq hne
    exact ⟨d, by rw [FileTree.erase_node_of_ne hempty hne, hd], of_decide_eq_true hdir⟩
  refine ⟨(t.erase path hempty).prune path.val.reverse, ?_, fun q => ?_⟩
  · unfold removeOndiskFile
    rw [hunlink]
    exact removeParents_eq _ _ (by rwa [List.reverse_reverse])
  · exact FileTree.erase_prune_node t path.val hempty q

section

variable {t' : DiskTree}

/-- What is looked up is what is there. -/
theorem lookup_eq_ok {ondisk : Option Inode} (h : t.lookup path = .ok ondisk) :
    t.node path = ondisk := by
  unfold lookup at h
  split at h
  · exact nomatch h
  · exact Except.ok.inj h

/-- A link is read when there is a link. -/
theorem readlink_eq_ok {target : Bytes} (h : t.readlink path = .ok target) :
    ∃ sb, t.node path = some sb ∧ sb.node = .symlink target := by
  obtain ⟨ondisk, hondisk, h⟩ := bind_eq_ok_iff.mp h
  obtain rfl := lookup_eq_ok hondisk
  cases hsb : t.node path with
  | none =>
    rw [hsb] at h
    exact nomatch h
  | some sb =>
    rw [hsb] at h
    dsimp only at h
    cases hnode : sb.node with
    | symlink target' =>
      rw [hnode] at h
      dsimp only at h
      split at h
      · exact nomatch h
      · obtain rfl := Except.ok.inj h
        exact ⟨sb, rfl, hnode⟩
    | _ =>
      rw [hnode] at h
      exact nomatch h

/-- A file that was put somewhere is there. -/
theorem rename_node {sb : Inode} (h : t.rename path sb = .ok t') : t'.node path = some sb := by
  unfold rename at h
  split at h
  · exact nomatch h
  split at h
  · split at h
    · obtain rfl := Except.ok.inj h
      exact FileTree.put_node_self _ _
    · exact nomatch h
  · exact nomatch h

/-- Where there is a conflict now there is no symlink any more. -/
theorem installSymlinkConflict_node {path : RelPath} {now : Timespec} {idStr target : Bytes}
    {deriv : Option Bytes} {orig : Option (Bytes × Bytes)}
    (h : installSymlinkConflict now idStr t path deriv orig target = .ok t') :
    ∃ sb, t'.node path = some sb ∧ S_ISREG sb.mode := by
  obtain ⟨t1, -, h⟩ := bind_eq_ok_iff.mp h
  exact ⟨_, rename_node h, (Inode.isReg_iff _).mpr ⟨_, rfl⟩⟩

end

end DiskTree

end Got

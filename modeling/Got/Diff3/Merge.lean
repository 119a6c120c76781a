import Got.Diff.Identical
import Got.Diff3.EdScript
import Got.Worktree.Status

/-!
# Three-way merges

A three-way merge compares either of two files that were derived from one with the other one,
and with the original (`diffreg`), and goes through both lists of changes at once (`mergeLoop`).
Where both have a change in the same place, the lines are put into an ed script; in between,
they are in conflict if the first derived file differs from the original there. The ed script
is applied to the first derived file at last.

What it does with the ed script depends on what the lines of the files are like. A line with
nothing but a dot ends the text of a command, and a byte of zero ends a piece of text that is
copied, and what follows is read as commands.

If the derived files are the same, the first list is empty, and nothing is put into the
script: what is written is what both have in common (`gotMergeDiff3_self`).
-/

namespace Got

open Lines Numeral

def GOT_DIFF_CONFLICT_MARKER_ORIG : Bytes := List.replicate 7 0x7c

/-! ## Changes -/

/-- `struct line_range`. Numbers can get negative where a range is extended. -/
structure IntRange where
  from_ : ℤ
  to_ : ℤ
  deriving DecidableEq

/-- `struct off_range` -/
structure OffRange where
  from_ : ℕ := 0
  to_ : ℕ := 0
  deriving DecidableEq

/-- A change, in lines of a file and of the second derived one. -/
structure MergeChange where
  old : IntRange
  new : IntRange
  deriving DecidableEq

/-- The change of one file against the common one as a change of the merge. -/
def Diff3Change.toMerge (change : Diff3Change) : MergeChange :=
  ⟨⟨change.old.from_, change.old.to_⟩, ⟨change.new.from_, change.new.to_⟩⟩

/-- **A command of the script that is made**, with the lines of the original, if there are any,
and those of the second derived file, as ranges of bytes. -/
structure Edit where
  overlap : Bool
  old : IntRange
  oldo : OffRange
  newo : OffRange
  deriving DecidableEq

/-- A file that is read, from the position and the line to which it was read. -/
structure ReadFile where
  content : Bytes
  pos : ℕ := 0
  cline : ℤ := 0

/-- **`struct diff3_state`**, with the last command first. -/
structure Diff3State where
  file1 : ReadFile
  file2 : ReadFile
  file3 : ReadFile
  edits : List Edit := []
  overlapcnt : ℕ := 0

/-! ## Reading the files -/

/-- The loop of `skip`, over so many lines: how many bytes they are, and where it gets. Behind
the end of the file the length of the last line is added once more, if one was read. -/
def skipLoop (content : Bytes) : ℕ → ℕ → Option ℕ → ℕ → Except GotErr (ℕ × ℕ)
  | 0, pos, _, nskipped => .ok (nskipped, pos)
  | count + 1, pos, len, nskipped =>
    match textLines (content.drop pos), len with
    | line :: _, _ =>
      let len := (endLine line).length
      skipLoop content count (pos + line.length) (some len) (nskipped + len)
    | [], some len => skipLoop content count pos (some len) (nskipped + len)
    | [], none => .error .outOfMap

/-- `skip`: how many bytes are skipped. -/
def ReadFile.skip (file : ReadFile) (from_ : ℤ) : Except GotErr (ℕ × ReadFile) := do
  let (nskipped, pos) ← skipLoop file.content (from_ - 1 - file.cline).toNat file.pos none 0
  return (nskipped, { file with pos := pos, cline := max file.cline (from_ - 1) })

/-- How many bytes there are up to the end of the line. -/
def restOfLine (data : Bytes) : ℕ :=
  (data.takeWhile (· ≠ 10)).length + if 10 ∈ data then 1 else 0

/-- The loops of `duplicate`, over so many lines. If a byte differs, it returns how many bytes
there are up to the end of that line. -/
def duplicateLoop : ℕ → Bytes → Bytes → ℕ → Except GotErr (Option ℕ)
  | 0, _, _, _ => .ok none
  | _ + 1, [], _, _ => .error .eof
  | _ + 1, _ :: _, [], _ => .error .eof
  | nline + 1, c :: data1, d :: data2, nchar =>
    if c ≠ d then .ok (some (nchar + 1 + if d = 10 then 0 else restOfLine data2))
    else if c = 10 then duplicateLoop nline data1 data2 (nchar + 1)
    else duplicateLoop (nline + 1) data1 data2 (nchar + 1)

/-- **`duplicate`**: whether the lines are the same, and where those of the original are if
not. The files are left at the start of the lines. -/
def duplicate (d3s : Diff3State) (r1 r2 : IntRange) :
    Except GotErr (Bool × OffRange × Diff3State) :=
  if r1.to_ - r1.from_ ≠ r2.to_ - r2.from_ then .ok (false, {}, d3s)
  else do
    let (_, file1) ← d3s.file1.skip r1.from_
    let (_, file2) ← d3s.file2.skip r2.from_
    let off := file2.pos
    let differs ← duplicateLoop (r1.to_ - r1.from_).toNat (file1.content.drop file1.pos)
      (file2.content.drop file2.pos) 0
    let d3s := { d3s with file1, file2 }
    match differs with
    | none => return (true, ⟨off, 0⟩, d3s)
    | some origLineLen => return (false, ⟨off, off + origLineLen⟩, d3s)

/-- **`edit`** -/
def edit (d3s : Diff3State) (change : MergeChange) (fdup : Bool) (oldo : OffRange) :
    Except GotErr Diff3State := do
  let (nskipped, file3) ← d3s.file3.skip change.new.from_
  let from_ := (d3s.edits.head?.map (·.newo.to_)).getD 0 + nskipped
  let (nskipped, file3) ← file3.skip change.new.to_
  return { d3s with
    file3
    edits := ⟨!fdup, change.old, oldo, ⟨from_, from_ + nskipped⟩⟩ :: d3s.edits
    overlapcnt := if fdup then d3s.overlapcnt else d3s.overlapcnt + 1 }

/-! ## Going through the changes -/

/-- A change with the next one, if they overlap. -/
def joinNext (d : MergeChange) : List MergeChange → Option (List MergeChange)
  | [] => none
  | next :: ds =>
    if d.new.to_ ≥ next.new.from_ then
      some (⟨⟨d.old.from_, next.old.to_⟩, ⟨d.new.from_, next.new.to_⟩⟩ :: ds)
    else none

/-- **A change is extended** to begin where another one does, if that begins before it, and to
end where that ends, if that ends behind it. -/
def MergeChange.extend (d other : MergeChange) : MergeChange :=
  ⟨⟨if other.new.from_ < d.new.from_ then d.old.from_ - (d.new.from_ - other.new.from_)
      else d.old.from_,
    if other.new.to_ > d.new.to_ then d.old.to_ + (other.new.to_ - d.new.to_) else d.old.to_⟩,
    ⟨min d.new.from_ other.new.from_, max d.new.to_ other.new.to_⟩⟩

/-- Joining a change with the next one leaves as many changes as there were behind it. -/
theorem joinNext_length {d : MergeChange} {ds ds' : List MergeChange}
    (h : joinNext d ds = some ds') : ds'.length = ds.length := by
  cases ds with
  | nil => exact nomatch h
  | cons next ds =>
    rw [joinNext] at h
    split at h
    · obtain rfl := Option.some.inj h
      rfl
    · exact nomatch h

/-- Changes that were extended by each other coincide. -/
theorem MergeChange.extend_new (d1 d2 : MergeChange) :
    (d1.extend d2).new = (d2.extend d1).new := by
  rw [extend, extend, min_comm, max_comm]

/-- **The loop of `merge`.** -/
def mergeLoop (d3s : Diff3State) (ds1 ds2 : List MergeChange) : Except GotErr Diff3State :=
  match ds1, ds2 with
  | [], [] => .ok d3s
  | _ :: ds1, [] => mergeLoop d3s ds1 []
  | [], _ :: ds2 => mergeLoop d3s [] ds2
  | d1 :: ds1, d2 :: ds2 =>
    if d1.new.to_ < d2.new.from_ then mergeLoop d3s ds1 (d2 :: ds2)
    else if d2.new.to_ < d1.new.from_ then mergeLoop d3s (d1 :: ds1) ds2
    else
      match _h1 : joinNext d1 ds1, _h2 : joinNext d2 ds2 with
      | some ds1', _ => mergeLoop d3s ds1' (d2 :: ds2)
      | none, some ds2' => mergeLoop d3s (d1 :: ds1) ds2'
      | none, none =>
        if _h : d1.new = d2.new then do
          let (fdup, oldo, d3s) ← duplicate d3s d1.old d2.old
          let d3s ← edit d3s d1 fdup oldo
          mergeLoop d3s ds1 ds2
        else mergeLoop d3s (d1.extend d2 :: ds1) (d2.extend d1 :: ds2)
termination_by
  (ds1.length + ds2.length, if ds1.head?.map (·.new) = ds2.head?.map (·.new) then 0 else 1)
decreasing_by
  · exact Prod.Lex.left _ _ (by simp)
  · exact Prod.Lex.left _ _ (by simp)
  · exact Prod.Lex.left _ _ (by simp)
  · exact Prod.Lex.left _ _ (by simp)
  · have hlen := joinNext_length _h1
    exact Prod.Lex.left _ _ (by simp; omega)
  · have hlen := joinNext_length _h2
    exact Prod.Lex.left _ _ (by simp; omega)
  · exact Prod.Lex.left _ _ (by simp; omega)
  · -- what is extended coincides afterwards
    rw [List.length_cons, List.length_cons, List.length_cons, List.length_cons]
    refine Prod.Lex.right _ ?_
    simp [_h, MergeChange.extend_new d1 d2]

/-! ## The script -/

def BUFSIZ : ℕ := 1024

/-- Text is copied in pieces, each of which ends at a zero. -/
def copyText (data : Bytes) : Bytes := (data.toChunks BUFSIZ).flatMap (·.takeWhile (· ≠ 0))

/-- What is read between two offsets of a file. -/
def readOffRange (content : Bytes) (range : OffRange) : Bytes :=
  (content.drop range.from_).take (range.to_ - range.from_)

/-- `prange` -/
def prange (rold : IntRange) : Bytes :=
  if rold.to_ ≤ rold.from_ then showInt (rold.from_ - 1) ++ text "a\n"
  else showInt rold.from_ ++ (if rold.to_ > rold.from_ + 1 then text "," ++ showInt (rold.to_ - 1)
    else []) ++ text "c\n"

/-- The marks of a conflict, which have to fit in buffers. -/
structure ConflictMarks where
  f1mark : Bytes
  f2mark : Bytes
  f3mark : Bytes

/-- A mark, with a label. -/
def conflictMark (marker : Bytes) (label : Option Bytes) : Except GotErr Bytes :=
  let mark := marker ++ (label.map (text " " ++ ·)).getD []
  if PATH_MAX ≤ mark.length then .error .noSpace else .ok mark

/-- The three marker lines of a conflict; a label that is too long is an error. -/
def conflictMarks (label1 label2 label3 : Option Bytes) : Except GotErr ConflictMarks := do
  let f1mark ← conflictMark GOT_DIFF_CONFLICT_MARKER_BEGIN label1
  let f2mark ← conflictMark GOT_DIFF_CONFLICT_MARKER_ORIG label2
  let f3mark ← conflictMark GOT_DIFF_CONFLICT_MARKER_END label3
  return { f1mark, f2mark, f3mark }

/-- What is printed for one command. -/
def editText (marks : ConflictMarks) (file2 file3 : Bytes) (e : Edit) : Bytes :=
  (if ¬e.overlap then prange e.old
    else if e.oldo.from_ < e.oldo.to_ then
      showInt (e.old.to_ - 1) ++ text "a\n" ++ marks.f2mark ++ text "\n"
        ++ copyText (readOffRange file2 e.oldo) ++ GOT_DIFF_CONFLICT_MARKER_SEP ++ text "\n"
    else showInt (e.old.to_ - 1) ++ text "a\n" ++ GOT_DIFF_CONFLICT_MARKER_SEP ++ text "\n")
  ++ copyText (readOffRange file3 e.newo)
  ++ if ¬e.overlap then text ".\n"
    else marks.f3mark ++ text "\n.\n" ++ showInt (e.old.from_ - 1) ++ text "a\n" ++ marks.f1mark
      ++ text "\n.\n"

/-- **`edscript`** -/
def edscript (marks : ConflictMarks) (d3s : Diff3State) : Bytes :=
  d3s.edits.flatMap (editText marks d3s.file2.content d3s.file3.content)

/-- **`diff3_internal`**: how many conflicts there are, and the script. -/
def diff3Internal (deriv orig deriv2 : Bytes) (label1 label2 label3 : Option Bytes) :
    Except GotErr (ℕ × Bytes) := do
  let marks ← conflictMarks label1 label2 label3
  let d13 := (readin (diffreg deriv deriv2)).map Diff3Change.toMerge
  let d23 := (readin (diffreg orig deriv2)).map Diff3Change.toMerge
  let d3s ← mergeLoop { file1 := ⟨deriv, 0, 0⟩, file2 := ⟨orig, 0, 0⟩, file3 := ⟨deriv2, 0, 0⟩ }
    d13 d23
  return (d3s.overlapcnt, edscript marks d3s)

/-! ## Applying the script -/

/-- **The lines that are edited**, of which the first one has no text, and the one that was
edited last. The number of a line is its index. -/
structure EdState where
  lines : List (Option Bytes)
  cursor : Option ℕ

/-- A command is the letter at its end. Any other line moves to the line of the number it
begins with. -/
inductive EdCommand
  | append (start : ℤ)
  | change (start end_ : ℤ)
  | other (start : ℤ)
  deriving DecidableEq

/-- The line an ed command starts at. -/
def EdCommand.start : EdCommand → ℤ
  | append start => start
  | change start _ => start
  | other start => start

/-- `strtol(3)`, for an `int`. -/
def strtolInt (s : Bytes) : ℤ × Bytes :=
  match strtol 10 s with
  | some (n, ep) => ((max (-2 ^ 63) (min n (2 ^ 63 - 1))).bmod (2 ^ 32), ep)
  | none => (0, s)

/-- What command a line is. There may be an error in it. -/
def edCommand (nblines : ℤ) (line : Bytes) : Option EdCommand :=
  let op := line.getD (line.length - 2) 0
  let (start, ep) := strtolInt (line.dropLast.takeWhile (· ≠ 0))
  if op = 'a'.toUInt8 then
    if start > nblines ∨ start < 0 ∨ ep.head? ≠ some 'a'.toUInt8 then none
    else some (.append start)
  else if op = 'c'.toUInt8 then
    if start > nblines ∨ start < 0
        ∨ (ep.head? ≠ some ','.toUInt8 ∧ ep.head? ≠ some 'c'.toUInt8) then none
    else if ep.head? = some ','.toUInt8 then
      let (end_, ep) := strtolInt ep.tail
      if end_ < 0 ∨ ep.head? ≠ some 'c'.toUInt8 then none else some (.change start end_)
    else some (.change start start)
  else some (.other start)

namespace EdState

/-- Move to a line. There may be no line to begin with, or none before the first one; behind
the last one is no memory. -/
def seek (st : EdState) (start : ℤ) : Except GotErr (Option EdState) :=
  if st.cursor = none ∨ start < 0 then .ok none
  else if start.toNat < st.lines.length then .ok (some { st with cursor := some start.toNat })
  else .error .outOfMap

/-- Take away lines, and move to the one before them. -/
def remove (st : EdState) (start end_ : ℤ) : Except GotErr EdState :=
  let first := start.toNat
  let count := (end_ - start + 1).toNat
  if st.lines.length < first + count then .error .outOfMap
  else .ok ⟨st.lines.take first ++ st.lines.drop (first + count),
    if first = 0 then none else some (first - 1)⟩

/-- Put in lines, up to one with nothing but a dot. -/
def insertLines (st : EdState) : List Bytes → Except GotErr (Option (EdState × List Bytes))
  | [] => .ok none
  | line :: plines =>
    if line = text ".\n" then .ok (some (st, plines))
    else
      match st.cursor with
      | none => .error .outOfMap
      | some i =>
        insertLines ⟨st.lines.take (i + 1) ++ some line :: st.lines.drop (i + 1), some (i + 1)⟩
          plines

end EdState

/-- A command is run at its line, with the lines of the script behind it. -/
def EdCommand.run (command : EdCommand) (st : EdState) (plines : List Bytes) :
    Except GotErr (Option (EdState × List Bytes)) :=
  match command with
  | append _ => st.insertLines plines
  | change start end_ => do
    let st ← st.remove start end_
    st.insertLines plines
  | other _ => .ok (some (st, plines))

/-- Inserting lines uses up no more of the patch than there is. -/
theorem EdState.insertLines_length {st st' : EdState} {plines rest : List Bytes}
    (h : st.insertLines plines = .ok (some (st', rest))) : rest.length ≤ plines.length := by
  induction plines generalizing st with
  | nil => exact nomatch h
  | cons line plines ih =>
    rw [insertLines] at h
    split at h
    · cases h
      exact Nat.le_succ _
    split at h
    · exact nomatch h
    · exact (ih h).trans (Nat.le_succ _)

/-- Running a command leaves no more of the patch than there was, so that the loop ends. -/
theorem EdCommand.run_length {command : EdCommand} {st st' : EdState} {plines rest : List Bytes}
    (h : command.run st plines = .ok (some (st', rest))) : rest.length ≤ plines.length := by
  cases command with
  | append start => exact EdState.insertLines_length h
  | change start end_ =>
    obtain ⟨st1, -, h⟩ := bind_eq_ok_iff.mp h
    exact EdState.insertLines_length h
  | other start =>
    cases h
    exact le_rfl

/-- **`ed_patch_lines`**. Nothing is returned if there is an error in a command. -/
def edPatchLines (st : EdState) (plines : List Bytes) : Except GotErr (Option EdState) :=
  match plines with
  | [] => .ok (some st)
  | line :: plines =>
    if line.length < 2 then edPatchLines st plines
    else
      match edCommand (st.lines.length - 1) line with
      | none => .ok none
      | some command =>
        match st.seek command.start with
        | .error e => .error e
        | .ok none => .ok none
        | .ok (some st) =>
          match _h : command.run st plines with
          | .error e => .error e
          | .ok none => .ok none
          | .ok (some (st, rest)) => edPatchLines st rest
termination_by plines.length
decreasing_by
  · exact Nat.lt_succ_self _
  · exact Nat.lt_succ_of_le (EdCommand.run_length _h)

/-- `rcs_patchfile` -/
def rcsPatchfile (data patch : Bytes) : Except GotErr (Option Bytes) := do
  match ← edPatchLines ⟨none :: (rcsSplitlines data).map some, some 0⟩ (rcsSplitlines patch) with
  | none => return none
  | some st => return some (st.lines.filterMap id).flatten

/-- **`got_merge_diff3`**: how many conflicts there are, and what is written. Nothing is if the
script cannot be applied, and that is no error. -/
def gotMergeDiff3 (deriv orig deriv2 : Bytes) (label1 label2 label3 : Option Bytes) :
    Except GotErr (ℕ × Bytes) := do
  let (overlapcnt, patch) ← diff3Internal deriv orig deriv2 label1 label2 label3
  match ← rcsPatchfile deriv patch with
  | none => return (0, [])
  | some merged => return (overlapcnt, merged)

/-! ## Both made the same change -/

/-- Changes of the original alone are passed over. -/
theorem mergeLoop_nil (d3s : Diff3State) (ds2 : List MergeChange) :
    mergeLoop d3s [] ds2 = .ok d3s := by
  induction ds2 with
  | nil => rw [mergeLoop]
  | cons d2 ds2 ih =>
    rw [mergeLoop]
    exact ih

/-- Nothing is changed by a script that is empty. -/
theorem rcsPatchfile_nil (data : Bytes) : rcsPatchfile data [] = .ok (some data) := by
  unfold rcsPatchfile
  rw [show rcsSplitlines [] = [] from rfl, edPatchLines, ok_bind]
  dsimp only
  rw [List.filterMap_cons_none rfl, List.filterMap_map, Function.id_comp, List.filterMap_some,
    rcsSplitlines_eq, flatten_textLines]
  rfl

/-- **If both derived files are the same, so is what is made of them**, and there is no
conflict. -/
theorem gotMergeDiff3_self (deriv orig : Bytes) {label1 label2 label3 : Option Bytes}
    {marks : ConflictMarks} (hmarks : conflictMarks label1 label2 label3 = .ok marks) :
    gotMergeDiff3 deriv orig deriv label1 label2 label3 = .ok (0, deriv) := by
  unfold gotMergeDiff3 diff3Internal
  rw [hmarks, ok_bind, diffreg_self, show readin [] = [] from rfl, List.map_nil]
  dsimp only
  rw [mergeLoop_nil]
  show (do
    let result ← rcsPatchfile deriv []
    match result with
    | none => Except.ok (0, [])
    | some merged => Except.ok (0, merged)) = _
  rw [rcsPatchfile_nil]
  rfl

end Got

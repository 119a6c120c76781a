import Got.Diff.AtomLines
import Got.Diff.Context
import Got.Diff.EdScript

/-!
# Choosing changes

When a file is staged, unstaged or reverted with a patch callback, each change in it is shown
and is answered with yes or no. Then two files are read side by side, by lines, and what is
written is the one or the other of them around each change, as it was answered: `outfile` gets
the old file with the changes that were chosen, and `rejectfile` gets the new file without
these. Either of the two may be missing.

The numbers of the lines come from the diff, which counts atoms.
-/

namespace Got

/-! ## Files -/

/-- **A file that is being read**: the lines that are left, and whether its end has been
met. -/
structure InFile where
  lines : List Bytes
  eof : Bool
  deriving DecidableEq

/-- A text that is read from its start. -/
def InFile.open_ (data : Bytes) : InFile := ⟨textLines data, false⟩

/-- `getline`. The end is met with a line that has no line feed. -/
def InFile.getline (f : InFile) : Option Bytes × InFile :=
  match f.lines with
  | [] => (none, { f with eof := true })
  | line :: lines => (some line, ⟨lines, line.getLast? ≠ some 10⟩)

/-- A file that is written to, if there is one. -/
abbrev OutFile := Option Bytes

/-- `fwrite` -/
def OutFile.write (f : OutFile) (data : Bytes) : OutFile := f.map (· ++ data)

/-- `copy_one_line`, to one of the files; or `skip_one_line` if there is none. -/
def copyOneLine (f : InFile) (outfile : OutFile) : InFile × OutFile :=
  match f.getline with
  | (none, f) => (f, outfile)
  | (some line, f) => (f, outfile.write line)

/-! ## Copying changes -/

/-- The loops of `copy_change`, up to a line. The turns are as many as the lines that are
left, and one more for the end of the file. -/
def copyLinesLoop (bound : ℕ) : ℕ → InFile → ℕ → OutFile → InFile × ℕ × OutFile
  | 0, f, lineCur, outfile => (f, lineCur, outfile)
  | turns + 1, f, lineCur, outfile =>
    if ¬f.eof ∧ lineCur < bound then
      let (f, outfile) := copyOneLine f outfile
      copyLinesLoop bound turns f (lineCur + 1) outfile
    else (f, lineCur, outfile)

/-- Lines are copied, up to the one with the given number. -/
def copyLines (bound : ℕ) (f : InFile) (lineCur : ℕ) (outfile : OutFile) : InFile × ℕ × OutFile :=
  copyLinesLoop bound (f.lines.length + 1) f lineCur outfile

/-- **What is read and written**: two files with the numbers of the lines that come next, and
up to two files to write to. -/
structure PatchState where
  f1 : InFile
  f2 : InFile
  lineCur1 : ℕ
  lineCur2 : ℕ
  outfile : OutFile
  rejectfile : OutFile
  deriving DecidableEq

/-- **`copy_change`** -/
def copyChange (st : PatchState) (startOld endOld startNew endNew : ℕ) : PatchState :=
  -- copy old file's lines leading up to patch
  let (f1, lineCur1, outfile) := copyLines startOld st.f1 st.lineCur1 st.outfile
  -- skip new file's lines leading up to patch
  let (f2, lineCur2, rejectfile) := copyLines startNew st.f2 st.lineCur2 st.rejectfile
  -- copy patched lines
  let (f2, lineCur2, outfile) := copyLines (endNew + 1) f2 lineCur2 outfile
  -- skip over old file's replaced lines
  let (f1, lineCur1, rejectfile) := copyLines (endOld + 1) f1 lineCur1 rejectfile
  ⟨f1, f2, lineCur1, lineCur2, outfile, rejectfile⟩

/-- The roles of the files that are written are swapped. -/
def PatchState.swap (st : PatchState) : PatchState :=
  { st with outfile := st.rejectfile, rejectfile := st.outfile }

/-- The loops of `copy_remaining_content`. -/
def copyToEofLoop : ℕ → InFile → OutFile → OutFile
  | 0, _, outfile => outfile
  | turns + 1, f, outfile =>
    if f.eof then outfile
    else
      let (f, outfile) := copyOneLine f outfile
      copyToEofLoop turns f outfile

/-- **`copy_remaining_content`** -/
def copyRemainingContent (st : PatchState) : OutFile × OutFile :=
  (copyToEofLoop (st.f1.lines.length + 1) st.f1 st.outfile,
    copyToEofLoop (st.f2.lines.length + 1) st.f2 st.rejectfile)

/-! ## Applying or rejecting changes -/

/-- The answers a callback gives. -/
inductive PatchChoice
  | none
  | yes
  | no
  | quit
  deriving DecidableEq

/-- **`apply_or_reject_change`**, but for the hunk that is shown. What it returns is how many
chunks it has used, with the new state. -/
def applyOrRejectChange (root : DiffRoot) (chunks : List DiffChunk) (n : ℕ) (choice : PatchChoice)
    (st : PatchState) : Except GotErr (ℕ × PatchState) :=
  let cc := (diffChunkContextLoadChange root 0 n (chunks.drop n) Option.none 0).1.getD
    ⟨⟨0, 0⟩, ⟨0, 0⟩, ⟨0, 0⟩⟩
  -- the same change with context lines, for display
  let used := (diffChunkContextLoadChange root 3 n (chunks.drop n) Option.none 0).2
  match choice with
  | .yes =>
    .ok (used, copyChange st cc.left.start cc.left.end_ cc.right.start cc.right.end_)
  | .no =>
    .ok (used, (copyChange st.swap cc.left.start cc.left.end_ cc.right.start cc.right.end_).swap)
  | .quit => .ok (used, st)
  | .none => .error .patchChoice

/-- **What the answers come to**: the state, whether there was a yes, and whether there was
anything else. -/
structure PatchResult where
  st : PatchState
  haveContent : Bool
  haveRejectedContent : Bool
  deriving DecidableEq

/-- The loop over the changes of `create_patched_content` and `create_unstaged_content`. The
callback answers by the number of the change. -/
def patchLoop (root : DiffRoot) (chunks : List DiffChunk) (patchCb : ℕ → PatchChoice) :
    ℕ → ℕ → ℕ → PatchResult → Except GotErr PatchResult
  | 0, _, _, result => .ok result
  | fuel + 1, n, i, result =>
    if n < chunks.length then do
      let choice := patchCb (i + 1)
      let (used, st) ← applyOrRejectChange root chunks n choice result.st
      let result : PatchResult := ⟨st, result.haveContent ∨ choice = .yes,
        result.haveRejectedContent ∨ choice ≠ .yes⟩
      if choice = .quit then return result
      patchLoop root chunks patchCb fuel (n + used) (i + 1) result
    else .ok result

/-- The changes of two files, from the start. -/
def patchChanges (left right : Bytes) (chunks : List DiffChunk) (patchCb : ℕ → PatchChoice)
    (outfile rejectfile : OutFile) : Except GotErr PatchResult :=
  patchLoop (textRoot left right) chunks patchCb chunks.length 0 0
    ⟨⟨InFile.open_ left, InFile.open_ right, 1, 1, outfile, rejectfile⟩, false, false⟩

/-- **`create_patched_content`**: the content, if any change has been chosen. -/
def createPatchedContent (reversePatch : Bool) (left right : Bytes) (chunks : List DiffChunk)
    (patchCb : ℕ → PatchChoice) : Except GotErr (Option Bytes) := do
  let outfile : OutFile := some []
  let result ← patchChanges left right chunks patchCb (if reversePatch then none else outfile)
    (if reversePatch then outfile else none)
  if result.haveContent then
    let (outfile, rejectfile) := copyRemainingContent result.st
    return if reversePatch then rejectfile else outfile
  else return none

/-- **`create_unstaged_content`**: what is unstaged, if any change has been chosen, and what
stays staged, if another one has not. -/
def createUnstagedContent (left right : Bytes) (chunks : List DiffChunk)
    (patchCb : ℕ → PatchChoice) : Except GotErr (Option Bytes × Option Bytes) := do
  let result ← patchChanges left right chunks patchCb (some []) (some [])
  let (outfile, rejectfile) :=
    if result.haveContent ∨ result.haveRejectedContent then copyRemainingContent result.st
    else (result.st.outfile, result.st.rejectfile)
  return (if result.haveContent then outfile else none,
    if result.haveContent ∧ result.haveRejectedContent then rejectfile else none)

end Got

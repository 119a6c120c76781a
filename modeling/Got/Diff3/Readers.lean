import Got.Diff.AtomLines
import Got.Lib.Numeral

/-!
# How a three-way merge reads an ed script

A merge reads the ed scripts of two diffs, and goes by the line numbers in them to the lines
of the files. It has readers of its own for that: the lines of a change are skipped to with
`get_line`, and the file that is patched is split with `rcs_splitlines`. Both take for a line
what ends with a line feed.
-/

namespace Got

open Lines Numeral

/-! ## Lines -/

/-- A line feed is put at the end of the last line if there is none. -/
def endLine (line : Bytes) : Bytes := if line.getLast? = some 10 then line else line ++ [10]

/-- **`get_line`**, of a file that is given by the lines that are left. -/
def getLine : List Bytes → Option (Bytes × List Bytes)
  | [] => none
  | line :: file => some (endLine line, file)

/-- **`skip`**: how many bytes so many lines are. Behind the end of the file there is nothing
to go by. -/
def skipLines : ℕ → List Bytes → Option ℕ
  | 0, _ => some 0
  | n + 1, file => do
    let (line, file) ← getLine file
    let skipped ← skipLines n file
    return line.length + skipped

/-- The loop of `rcs_splitlines`: a line ends at a newline or with the data. -/
def rcsSplitlinesLoop : Bytes → Bytes → List Bytes
  | _, [] => []
  | line, c :: data =>
    if c = 10 ∨ data = [] then (line ++ [c]) :: rcsSplitlinesLoop [] data
    else rcsSplitlinesLoop (line ++ [c]) data

/-- **`rcs_splitlines`** -/
def rcsSplitlines (data : Bytes) : List Bytes := rcsSplitlinesLoop [] data

/-! ## Changes -/

/-- The first line, and the line behind the last one. -/
structure LineRange where
  from_ : ℕ
  to_ : ℕ
  deriving DecidableEq

/-- **A change**, in lines of the first file and of the second one. -/
structure Diff3Change where
  old : LineRange
  new : LineRange
  deriving DecidableEq

/-- One line number or two, and what is behind them. -/
def readNumbers (p : Bytes) : LineRange × Bytes :=
  let (a, p) := readNumber 10 p 0
  if p.head? = some ','.toUInt8 then
    let (b, p) := readNumber 10 p.tail 0
    (⟨a, b⟩, p)
  else (⟨a, a⟩, p)

/-- **One turn of the loop of `readin`.** -/
def readChange (p : Bytes) : Diff3Change :=
  let (old, p) := readNumbers p
  let kind := p.head?
  let (new, _) := readNumbers p.tail
  let a := if kind = some 'a'.toUInt8 then old.from_ + 1 else old.from_
  let c := if kind = some 'd'.toUInt8 then new.from_ + 1 else new.from_
  ⟨⟨a, old.to_ + 1⟩, ⟨c, new.to_ + 1⟩⟩

/-- `getchange`: a line that does not begin with a digit is passed over. -/
def isChangeLine (line : Bytes) : Bool :=
  match line with
  | [] => false
  | c :: _ => isdigit c

/-- **`readin`**: the changes of an ed script. -/
def readin (script : Bytes) : List Diff3Change :=
  (((textLines script).map endLine).filter isChangeLine).map readChange

/-! ## Patching -/

/-- The lines of a change, which are found by skipping to them. -/
def changedLines (right : Bytes) (change : Diff3Change) : Option Bytes := do
  let from_ ← skipLines (change.new.from_ - 1) (textLines right)
  let to_ ← skipLines (change.new.to_ - 1) (textLines right)
  return (right.drop from_).take (to_ - from_)

/-- **One change is made** to the lines of a file. -/
def patchLines (right : Bytes) (change : Diff3Change) (dlines : List Bytes) :
    Option (List Bytes) := do
  let text ← changedLines right change
  if change.old.to_ ≤ dlines.length + 1 then
    return dlines.take (change.old.from_ - 1) ++ text :: dlines.drop (change.old.to_ - 1)
  else none

/-- **The changes are made**, from the last one to the first one. -/
def patchAll (right : Bytes) : List Diff3Change → List Bytes → Option (List Bytes)
  | [], dlines => some dlines
  | change :: changes, dlines => do
    let dlines ← patchAll right changes dlines
    patchLines right change dlines

/-- **An ed script is applied** to one file, with lines of the other. -/
def applyEdScript (left right script : Bytes) : Option Bytes :=
  (patchAll right (readin script) (rcsSplitlines left)).map List.flatten

end Got

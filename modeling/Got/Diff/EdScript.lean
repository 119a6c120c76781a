import Got.Diff.Context
import Got.Diff.Atomize
import Got.Lib.Numeral

/-!
# Ed scripts

The chunks of a diff are written as commands of an editor, by line number, one command for
each range of chunks that are not the same on both sides.

The first line of a file has number 1, and a position between lines has the number of the
line before it. Before the first line that is 0, but here it is written as 1, unless the
file is empty (`lineNumber`).
-/

namespace Got

open Numeral

/-- The number of the first line of a range, or of the line before it if it is
empty. -/
def lineNumber (range : DiffRange) (atomsLen : ℕ) : ℕ :=
  if atomsLen = 0 then 0
  else if range.end_ - range.start = 0 ∧ range.start > 0 then range.start
  else range.start + 1

/-- One line number or two. -/
def lineNumbers (range : DiffRange) (start : ℕ) : Bytes :=
  if range.end_ - range.start = 1 then decimal start
  else decimal start ++ ','.toUInt8 :: decimal range.end_

/-- **`output_edscript_chunk`** -/
def outputEdscriptChunk (root : DiffRoot) (cc : DiffChunkContext) : Bytes :=
  let leftStart := lineNumber cc.left root.left.length
  let rightStart := lineNumber cc.right root.right.length
  if cc.left.end_ - cc.left.start = 0 then
    decimal leftStart ++ 'a'.toUInt8 :: lineNumbers cc.right rightStart ++ [10]
  else if cc.right.end_ - cc.right.start = 0 then
    lineNumbers cc.left leftStart ++ 'd'.toUInt8 :: decimal rightStart ++ [10]
  else lineNumbers cc.left leftStart ++ 'c'.toUInt8 :: lineNumbers cc.right rightStart ++ [10]

/-- **`diff_output_edscript`**, where files are taken for text. -/
def diffOutputEdscript (root : DiffRoot) (chunks : List DiffChunk) : Bytes :=
  (diffChunkContexts root 0 0 chunks none).flatMap (outputEdscriptChunk root)

/-- `got_diffreg`, by patience, and with no regard to white space being ignored. -/
def gotDiffreg (root : DiffRoot) : List DiffChunk := diffMainPatience root

/-- Two texts as files to be compared. -/
def textRoot (left right : Bytes) : DiffRoot where
  left := diffDataAtomizeTextLines false left
  right := diffDataAtomizeTextLines false right
  ignoreWhitespace := false

/-- `diffreg` of `diff3.c` -/
def diffreg (left right : Bytes) : Bytes :=
  let root := textRoot left right
  diffOutputEdscript root (gotDiffreg root)

end Got

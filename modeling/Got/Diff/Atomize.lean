import Got.Diff.Chunk
import Got.Lib.Lines

/-!
# Atoms of a text

The atoms of a text are its lines, and a carriage return ends a line as well. It
does so even if a line feed follows, and a carriage return at the start of a line
that has nothing else is taken for a part of the line before. So where there are
carriage returns the atoms are not the lines that the rest of the source counts,
which end with a line feed.
-/

namespace Got

open Lines

/-- One byte of a line goes into its hash. -/
def diffAtomHashUpdate (hash : UInt32) (c : UInt8) : UInt32 := hash * 23 + c.toUInt32

/-- The hash of a line, without its end. -/
def lineHash (ignoreWhitespace : Bool) (body : Bytes) : UInt32 :=
  body.foldl (fun hash c =>
    if ignoreWhitespace ∧ isspace c then hash else diffAtomHashUpdate hash c) 0

/-- How long the first line is, given how long it is without its end. -/
def lineEnd (data : Bytes) (body : ℕ) : ℕ :=
  let end_ := if body < data.length then body + 1 else body
  if end_ + 1 < data.length ∧ data[end_]? = some 13 ∧ data[end_ + 1]? = some 10 then end_ + 1
  else end_

/-- The loop of `diff_data_atomize_text_lines_mmap`: up to the next line ending, the hash of the
line, then on behind it. -/
def atomizeLoop (ignoreWhitespace : Bool) : ℕ → Bytes → List DiffAtom
  | 0, _ => []
  | _, [] => []
  | fuel + 1, data =>
    let body := data.takeWhile (fun c => c ≠ 13 ∧ c ≠ 10)
    let len := lineEnd data body.length
    ⟨lineHash ignoreWhitespace body, data.take len⟩
      :: atomizeLoop ignoreWhitespace fuel (data.drop len)

/-- **`diff_data_atomize_text_lines_mmap`** -/
def diffDataAtomizeTextLines (ignoreWhitespace : Bool) (data : Bytes) : List DiffAtom :=
  atomizeLoop ignoreWhitespace data.length data

theorem lineEnd_pos {data : Bytes} (h : data ≠ []) (body : ℕ) : 0 < lineEnd data body := by
  have := List.length_pos_iff.mpr h
  unfold lineEnd
  dsimp only
  split <;> split <;> omega

/-- **Nothing of the file is lost.** The atoms put together are the file. -/
theorem flatten_atomizeLoop (ignoreWhitespace : Bool) {fuel : ℕ} {data : Bytes}
    (h : data.length ≤ fuel) :
    ((atomizeLoop ignoreWhitespace fuel data).map DiffAtom.data).flatten = data := by
  induction fuel generalizing data with
  | zero =>
    rw [List.eq_nil_of_length_eq_zero (Nat.le_zero.mp h)]
    rfl
  | succ fuel ih =>
    cases data with
    | nil => rfl
    | cons c data =>
      have hpos := lineEnd_pos (List.cons_ne_nil c data)
        ((c :: data).takeWhile (fun c => c ≠ 13 ∧ c ≠ 10)).length
      rw [atomizeLoop]
      · rw [List.map_cons, List.flatten_cons, ih, List.take_append_drop]
        rw [List.length_drop]
        omega
      · exact List.cons_ne_nil c data

/-- **The atoms are the whole text.** -/
theorem flatten_atoms (ignoreWhitespace : Bool) (data : Bytes) :
    ((diffDataAtomizeTextLines ignoreWhitespace data).map DiffAtom.data).flatten = data :=
  flatten_atomizeLoop ignoreWhitespace le_rfl

end Got

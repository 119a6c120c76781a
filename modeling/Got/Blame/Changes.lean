import Got.Blame.Open
import Got.Diff.Main

/-!
# What one difference does to the state

A sound script adds some lines of the newer file, keeps others, and drops lines of
the older one. The loops over the chunks go through both files at once; what they
do is that the lines which are added are annotated (`Annotates`), and that the map
of the older file has, for a line that is kept, what the other map has for it
(`blameChanges_spec`). They stop early once all lines are annotated, and then the map
is filled in up to some line only.
-/

namespace Got

variable {ι : Type} {id : ι} {root : DiffRoot} {chunks : List DiffChunk}

/-! ## Lines of a script -/

/-- **A line of the newer file that is added.** -/
def Adds (chunks : List DiffChunk) (line : ℕ) : Prop :=
  ∃ c ∈ chunks, c.leftCount = 0 ∧ c.rightStart ≤ line ∧ line < c.rightEnd

/-- **A line of the newer file that is kept**, and which line of the older file
it is. -/
def Keeps (chunks : List DiffChunk) (line line' : ℕ) : Prop :=
  ∃ c ∈ chunks, c.leftCount ≠ 0 ∧ ∃ i < c.rightCount,
    line = c.rightStart + i ∧ line' = c.leftStart + i

theorem adds_cons {c : DiffChunk} {line : ℕ} :
    Adds (c :: chunks) line
      ↔ (c.leftCount = 0 ∧ c.rightStart ≤ line ∧ line < c.rightEnd) ∨ Adds chunks line :=
  List.exists_mem_cons_iff ..

theorem keeps_cons {c : DiffChunk} {line line' : ℕ} :
    Keeps (c :: chunks) line line'
      ↔ (c.leftCount ≠ 0 ∧ ∃ i < c.rightCount, line = c.rightStart + i ∧ line' = c.leftStart + i)
        ∨ Keeps chunks line line' :=
  List.exists_mem_cons_iff ..

/-- What comes before the start of ranges is not covered. -/
theorem covers_le {ranges : List (ℕ × ℕ)} {a b : ℕ} (h : Covers a ranges b) : a ≤ b := by
  induction ranges generalizing a with
  | nil => exact le_of_eq h
  | cons range ranges ih => exact (Nat.le_add_right a range.2).trans (ih h.2)

/-- An added line is not in front of the others. -/
theorem Adds.le {line r r' : ℕ} (h : Adds chunks line)
    (hright : Covers r (chunks.map fun c => (c.rightStart, c.rightCount)) r') : r ≤ line := by
  induction chunks generalizing r with
  | nil =>
    obtain ⟨c, hc, -⟩ := h
    exact absurd hc List.not_mem_nil
  | cons c chunks ih =>
    obtain ⟨hr, hright⟩ := hright
    rcases adds_cons.mp h with ⟨-, hle, -⟩ | h
    · exact hr ▸ hle
    · exact (Nat.le_add_right r _).trans (ih h hright)

section Chunks

variable {l r l' r' line line' : ℕ}
  (hleft : Covers l (chunks.map fun c => (c.leftStart, c.leftCount)) l')
  (hright : Covers r (chunks.map fun c => (c.rightStart, c.rightCount)) r')
  (hgood : ∀ c ∈ chunks, c.Good root)

include hleft hright hgood

/-- Where the lines are that are kept. -/
theorem Keeps.bounds (h : Keeps chunks line line') :
    (r ≤ line ∧ line < r') ∧ l ≤ line' ∧ line' < l' := by
  induction chunks generalizing l r with
  | nil =>
    obtain ⟨c, hc, -⟩ := h
    exact absurd hc List.not_mem_nil
  | cons c chunks ih =>
    obtain ⟨hl, hleft⟩ := hleft
    obtain ⟨hr, hright⟩ := hright
    dsimp only at hl hr hleft hright
    have hle1 := covers_le hleft
    have hle2 := covers_le hright
    rcases keeps_cons.mp h with ⟨hne, i, hi, rfl, rfl⟩ | h
    · have hcount := ((hgood c List.mem_cons_self).same hne (by omega)).1
      omega
    · have hb := ih hleft hright (fun c' hc' => hgood c' (List.mem_cons_of_mem _ hc')) h
      omega

/-- **A line that is kept is one line** of the older file, and of the newer one. -/
theorem Keeps.unique {k k' : ℕ} (h : Keeps chunks line k) (h' : Keeps chunks line' k') :
    line = line' ↔ k = k' := by
  induction chunks generalizing l r with
  | nil =>
    obtain ⟨c, hc, -⟩ := h
    exact absurd hc List.not_mem_nil
  | cons c chunks ih =>
    obtain ⟨hl, hleft⟩ := hleft
    obtain ⟨hr, hright⟩ := hright
    dsimp only at hl hr hleft hright
    have hgood' := fun c' hc' => hgood c' (List.mem_cons_of_mem _ hc')
    rcases keeps_cons.mp h with ⟨hne, i, hi, rfl, rfl⟩ | h <;>
      rcases keeps_cons.mp h' with ⟨hne', i', hi', rfl, rfl⟩ | h'
    · omega
    · have hcount := ((hgood c List.mem_cons_self).same hne (by omega)).1
      have hb := h'.bounds hleft hright hgood'
      omega
    · have hcount := ((hgood c List.mem_cons_self).same hne' (by omega)).1
      have hb := h.bounds hleft hright hgood'
      omega
    · exact ih hleft hright hgood' h h'

/-- **Every line of the newer file is added or kept.** -/
theorem adds_or_keeps (hl : r ≤ line) (hr : line < r') :
    Adds chunks line ∨ ∃ line', Keeps chunks line line' := by
  induction chunks generalizing l r with
  | nil =>
    obtain rfl : r = r' := hright
    omega
  | cons c chunks ih =>
    obtain ⟨-, hleft⟩ := hleft
    obtain ⟨hstart, hright⟩ := hright
    dsimp only at hstart hleft hright
    by_cases hlt : line < r + c.rightCount
    · by_cases hzero : c.leftCount = 0
      · refine Or.inl (adds_cons.mpr (Or.inl ⟨hzero, ?_⟩))
        rw [DiffChunk.rightEnd]
        omega
      · refine Or.inr ⟨c.leftStart + (line - r), keeps_cons.mpr (Or.inl ⟨hzero, line - r, ?_⟩)⟩
        omega
    · refine (ih hleft hright (fun c' hc' => hgood c' (List.mem_cons_of_mem _ hc'))
        (not_lt.mp hlt)).imp (fun h => adds_cons.mpr (Or.inr h)) ?_
      rintro ⟨line', h⟩
      exact ⟨line', keeps_cons.mpr (Or.inr h)⟩

/-- A line that is added is not kept. -/
theorem Adds.not_keeps (h : Adds chunks line) (h' : Keeps chunks line line') : False := by
  induction chunks generalizing l r with
  | nil =>
    obtain ⟨c, hc, -⟩ := h
    exact absurd hc List.not_mem_nil
  | cons c chunks ih =>
    obtain ⟨hl, hleft⟩ := hleft
    obtain ⟨hr, hright⟩ := hright
    dsimp only at hl hr hleft hright
    have hgood' := fun c' hc' => hgood c' (List.mem_cons_of_mem _ hc')
    rcases adds_cons.mp h with ⟨hzero, hle, hlt⟩ | h <;>
      rcases keeps_cons.mp h' with ⟨hne, i, hi, rfl, rfl⟩ | h'
    · exact hne hzero
    · have hb := h'.bounds hleft hright hgood'
      rw [DiffChunk.rightEnd] at hlt
      omega
    · have hle := h.le hright
      omega
    · exact ih hleft hright hgood' h h'

end Chunks

/-- A line that is kept is the same in both files. -/
theorem Keeps.same {line line' : ℕ} (h : Keeps chunks line line')
    (hgood : ∀ c ∈ chunks, c.Good root) :
    root.same line' line = true := by
  obtain ⟨c, hc, hne, i, hi, rfl, rfl⟩ := h
  obtain ⟨hcount, hsame⟩ := (hgood c hc).same hne (by omega)
  exact hsame i (by omega)

/-- **What the map of the older file has** for one of its lines. -/
def CarriedOver (chunks : List DiffChunk) (linemap2 : List ℤ) (line' : ℕ) (ln : Option ℤ) : Prop :=
  (ln = some (-1) ∧ ∀ line, ¬Keeps chunks line line')
    ∨ ∃ line, Keeps chunks line line' ∧ ln = linemap2[line]?

namespace Blame

variable {blame blame' blame'' : Blame ι} {linemap1 linemap2 : List ℤ} {n idx1 idx2 : ℕ}

/-! ## Maps -/

theorem readMap_of_lt (h : idx2 < linemap2.length) :
    ∃ ln, linemap2[idx2]? = some ln ∧ readMap linemap2 idx2 = .ok ln := by
  refine ⟨linemap2[idx2], List.getElem?_eq_getElem h, ?_⟩
  rw [readMap, List.getElem?_eq_getElem h]

theorem writeMap_of_lt (h : idx1 < linemap1.length) (ln : ℤ) :
    writeMap linemap1 idx1 ln = .ok (linemap1.set idx1 ln) := if_pos h

/-- A part of a map was filled in, and the rest of it is what it was. -/
def FilledIn (linemap linemap' : List ℤ) (start stop : ℕ) (f : ℕ → Option ℤ) : Prop :=
  linemap'.length = linemap.length
    ∧ ∀ q, linemap'[q]? = if start ≤ q ∧ q < stop then f q else linemap[q]?

theorem FilledIn.refl (linemap : List ℤ) (start : ℕ) (f : ℕ → Option ℤ) :
    FilledIn linemap linemap start start f :=
  ⟨rfl, fun q => (if_neg (by omega)).symm⟩

/-- One entry, and then the others. -/
theorem FilledIn.cons {linemap linemap' : List ℤ} {start stop : ℕ} {f : ℕ → Option ℤ} {ln : ℤ}
    (h : FilledIn (linemap.set start ln) linemap' (start + 1) stop f) (hf : f start = some ln)
    (hstart : start < linemap.length) (hstop : start < stop) :
    FilledIn linemap linemap' start stop f := by
  obtain ⟨hlen, h⟩ := h
  refine ⟨by rw [hlen, List.length_set], fun q => ?_⟩
  rw [h, List.getElem?_set]
  rcases Nat.lt_trichotomy q start with hlt | rfl | hlt
  · rw [if_neg (by omega), if_neg (by omega), if_neg (by omega)]
  · rw [if_neg (by omega), if_pos rfl, if_pos hstart, if_pos ⟨le_rfl, hstop⟩, hf]
  · rw [if_neg (show start ≠ q by omega)]
    exact if_congr (by omega) rfl rfl

/-- One part, and then another. -/
theorem FilledIn.trans {linemap linemap' linemap'' : List ℤ} {start mid stop : ℕ}
    {f g : ℕ → Option ℤ} (h : FilledIn linemap linemap' start mid f)
    (h' : FilledIn linemap' linemap'' mid stop g) (hstart : start ≤ mid) (hstop : mid ≤ stop) :
    FilledIn linemap linemap'' start stop fun q => if q < mid then f q else g q := by
  refine ⟨h'.1.trans h.1, fun q => ?_⟩
  rw [h'.2, h.2]
  dsimp only
  by_cases hq : q < mid
  · rw [if_neg (by omega), if_pos hq]
    exact if_congr (by omega) rfl rfl
  · rw [if_neg hq, if_neg (show ¬(start ≤ q ∧ q < mid) by omega)]
    exact if_congr (by omega) rfl rfl

/-- **Lines that are kept** have what the other map has. -/
theorem keepLines_spec (h1 : idx1 + n ≤ linemap1.length) (h2 : idx2 + n ≤ linemap2.length) :
    ∃ linemap', keepLines linemap2 n idx1 idx2 linemap1 = .ok linemap'
      ∧ FilledIn linemap1 linemap' idx1 (idx1 + n) fun q => linemap2[idx2 + (q - idx1)]? := by
  induction n generalizing idx1 idx2 linemap1 with
  | zero => exact ⟨linemap1, rfl, .refl _ _ _⟩
  | succ n ih =>
    obtain ⟨ln, hln, hread⟩ := readMap_of_lt (show idx2 < linemap2.length by omega)
    obtain ⟨linemap', heq, h⟩ := @ih (linemap1.set idx1 ln) (idx1 + 1) (idx2 + 1)
      (by rw [List.length_set]; omega) (by omega)
    refine ⟨linemap', ?_, ?_⟩
    · rw [keepLines, hread, ok_bind, writeMap_of_lt (by omega), ok_bind, heq]
    · refine @FilledIn.cons _ _ _ _ _ ln ⟨h.1, fun q => ?_⟩ ?_ (by omega) (by omega)
      · rw [h.2]
        by_cases hq : idx1 + 1 ≤ q ∧ q < idx1 + 1 + n
        · have hidx : idx2 + 1 + (q - (idx1 + 1)) = idx2 + (q - idx1) := by omega
          rw [if_pos hq, if_pos (by omega)]
          exact congrArg (linemap2[·]?) hidx
        · rw [if_neg hq, if_neg (by omega)]
      · rw [Nat.sub_self, Nat.add_zero, hln]

/-- **Lines that are dropped** have -1. -/
theorem dropLines_spec (h1 : idx1 + n ≤ linemap1.length) :
    ∃ linemap', dropLines n idx1 linemap1 = .ok linemap'
      ∧ FilledIn linemap1 linemap' idx1 (idx1 + n) fun _ => some (-1) := by
  induction n generalizing idx1 linemap1 with
  | zero => exact ⟨linemap1, rfl, .refl _ _ _⟩
  | succ n ih =>
    obtain ⟨linemap', heq, h⟩ := @ih (linemap1.set idx1 (-1)) (idx1 + 1)
      (by rw [List.length_set]; omega)
    refine ⟨linemap', ?_, ?_⟩
    · rw [dropLines, writeMap_of_lt (by omega), ok_bind, heq]
    · rw [Nat.add_right_comm] at h
      exact FilledIn.cons h rfl (by omega) (by omega)

/-! ## Annotations -/

/-- **The lines that are annotated are counted.** -/
structure Counted (blame : Blame ι) : Prop where
  length : blame.lines.length = blame.nlines
  count : blame.nannotated = blame.lines.countP Option.isSome

theorem Counted.le (h : blame.Counted) : blame.nannotated ≤ blame.nlines := by
  rw [h.count, ← h.length]
  exact List.countP_le_length

/-- All lines are annotated if that many are. -/
theorem Counted.eq_iff (h : blame.Counted) :
    blame.nannotated = blame.nlines ↔ ∀ line : ℕ, blame.lines[line]? ≠ some none := by
  rw [h.count, ← h.length, List.countP_eq_length]
  constructor
  · intro hall line hline
    exact absurd (hall none (List.mem_of_getElem? hline)) Bool.false_ne_true
  · intro hne line hline
    obtain ⟨i, hi⟩ := List.mem_iff_getElem?.mp hline
    cases line with
    | none => exact absurd hi (hne i)
    | some id => rfl

/-- **Some lines are annotated**, those of them that were not annotated before. -/
structure Annotates (id : ι) (p : ℕ → Prop) (blame blame' : Blame ι) : Prop where
  counted : blame'.Counted
  nlines : blame'.nlines = blame.nlines
  new : ∀ line, blame.lines[line]? = some none → p line → blame'.lines[line]? = some (some id)
  old : ∀ line, ¬(blame.lines[line]? = some none ∧ p line) →
    blame'.lines[line]? = blame.lines[line]?

variable {p q : ℕ → Prop}

theorem Annotates.refl (h : blame.Counted) (hp : ∀ line, blame.lines[line]? = some none → ¬p line) :
    Annotates id p blame blame :=
  ⟨h, rfl, fun line hline hpl => absurd hpl (hp line hline), fun _ _ => rfl⟩

/-- Two steps of a blame run annotate what either of them annotates. -/
theorem Annotates.trans (h : Annotates id p blame blame') (h' : Annotates id q blame' blame'') :
    Annotates id (fun line => p line ∨ q line) blame blame'' := by
  refine ⟨h'.counted, h'.nlines.trans h.nlines, fun line hline hpq => ?_, fun line hline => ?_⟩
  · by_cases hp : p line
    · rw [h'.old line (by rw [h.new line hline hp]; simp), h.new line hline hp]
    · have hsame := h.old line (fun hc => hp hc.2)
      exact h'.new line (hsame.trans hline) (hpq.resolve_left hp)
  · have hsame := h.old line (fun hc => hline ⟨hc.1, Or.inl hc.2⟩)
    rw [h'.old line fun hc => hline ⟨hsame ▸ hc.1, Or.inr hc.2⟩, hsame]

theorem Annotates.congr (h : Annotates id p blame blame') (hpq : ∀ line, p line ↔ q line) :
    Annotates id q blame blame' :=
  ⟨h.counted, h.nlines, fun line hline hq => h.new line hline ((hpq line).mpr hq),
    fun line hline => h.old line fun hc => hline ⟨hc.1, (hpq line).mp hc.2⟩⟩

/-- A line is never annotated again. -/
theorem Annotates.annotated (h : Annotates id p blame blame') {line : ℕ} {id' : ι}
    (hline : blame.lines[line]? = some (some id')) : blame'.lines[line]? = some (some id') :=
  (h.old line fun hc => by rw [hline] at hc; exact nomatch hc.1).trans hline

/-- Everything else of a state. -/
def SameData (blame blame' : Blame ι) : Prop :=
  blame'.data1 = blame.data1 ∧ blame'.data2 = blame.data2
    ∧ blame'.linemap2 = blame.linemap2

theorem SameData.refl (blame : Blame ι) : SameData blame blame := ⟨rfl, rfl, rfl⟩

theorem SameData.trans (h : SameData blame blame') (h' : SameData blame' blame'') :
    SameData blame blame'' :=
  ⟨h'.1.trans h.1, h'.2.1.trans h.2.1, h'.2.2.trans h.2.2⟩

/-- `blame_line` sets one line and nothing else: an annotated line keeps its commit, and neither the
data nor the line map moves. -/
theorem annotateLine_spec (h : blame.Counted) (lineno : ℤ) (id : ι) :
    Annotates id (fun line => (line : ℤ) = lineno) blame (blame.annotateLine lineno id)
      ∧ SameData blame (blame.annotateLine lineno id)
      ∧ (blame.annotateLine lineno id).linemap1 = blame.linemap1 := by
  have hlt : ∀ {line}, blame.lines[line]? = some none → line < blame.nlines := fun hline => by
    rw [← h.length]
    exact (List.getElem?_eq_some_iff.mp hline).1
  unfold annotateLine
  split
  · next hrange =>
    refine ⟨.refl h fun line hline heq => ?_, SameData.refl _, rfl⟩
    have := hlt hline
    omega
  · next hrange =>
    obtain ⟨i, rfl⟩ : ∃ i : ℕ, lineno = i := ⟨lineno.toNat, by omega⟩
    rw [Int.toNat_natCast]
    split
    · next hnone =>
      have hi : i < blame.lines.length := h.length ▸ hlt hnone
      refine ⟨⟨⟨?_, ?_⟩, rfl, fun line hline heq => ?_, fun line hne => ?_⟩, SameData.refl _, rfl⟩
      · rw [List.length_set]
        exact h.length
      · have hget : blame.lines[i] = none := by
          rw [List.getElem?_eq_getElem hi] at hnone
          exact Option.some.inj hnone
        show blame.nannotated + 1 = (blame.lines.set i (some id)).countP Option.isSome
        rw [List.countP_set hi, hget, h.count]
        rfl
      · obtain rfl : line = i := Int.ofNat_inj.mp heq
        show (blame.lines.set line (some id))[line]? = _
        rw [List.getElem?_set_self hi]
      · show (blame.lines.set i (some id))[line]? = _
        rw [List.getElem?_set_ne]
        rintro rfl
        exact hne ⟨hnone, rfl⟩
    · next hsome =>
      refine ⟨.refl h fun line hline heq => ?_, SameData.refl _, rfl⟩
      obtain rfl : line = i := Int.ofNat_inj.mp heq
      exact hsome hline

/-- **The lines of a chunk are annotated**, or all lines there are. -/
theorem annotateLines_spec (h : blame.Counted) (hn : idx2 + n ≤ blame.linemap2.length) :
    ∃ blame', annotateLines id n idx2 blame = .ok blame'
      ∧ Annotates id (fun line => ∃ i < n, blame.linemap2[idx2 + i]? = some (line : ℤ)) blame blame'
      ∧ SameData blame blame' ∧ blame'.linemap1 = blame.linemap1 := by
  induction n generalizing idx2 blame with
  | zero =>
    refine ⟨blame, rfl, .refl h fun line _ hi => ?_, SameData.refl _, rfl⟩
    obtain ⟨i, hi, -⟩ := hi
    exact Nat.not_lt_zero i hi
  | succ n ih =>
    obtain ⟨ln, hln, hread⟩ := readMap_of_lt (show idx2 < blame.linemap2.length by omega)
    obtain ⟨hann, hdata, hmap⟩ := annotateLine_spec h ln id
    generalize hnext : blame.annotateLine ln id = next at hann hdata hmap
    have hfirst : ∀ line : ℕ, (line : ℤ) = ln ↔ blame.linemap2[idx2 + 0]? = some (line : ℤ) := by
      intro line
      rw [Nat.add_zero, hln]
      exact ⟨fun heq => congrArg some heq.symm, fun heq => (Option.some.inj heq).symm⟩
    rw [annotateLines, hread, ok_bind, hnext]
    dsimp only
    split
    · next hall =>
      -- nothing is left, so that the other lines of the chunk are annotated as well
      have hnone := hann.counted.eq_iff.mp hall.symm
      refine ⟨next, rfl, ?_, hdata, hmap⟩
      have hrest : Annotates id (fun line => ∃ i < n,
        blame.linemap2[idx2 + 1 + i]? = some (line : ℤ))
          next next := .refl hann.counted fun line hline => absurd hline (hnone line)
      refine (hann.trans hrest).congr fun line => ?_
      rw [hfirst, Nat.exists_lt_succ_left]
      simp only [Nat.add_assoc, Nat.add_comm 1]
    · obtain ⟨blame', heq, hann', hdata', hmap'⟩ := @ih next (idx2 + 1) hann.counted
        (by rw [hdata.2.2]; omega)
      refine ⟨blame', heq, ?_, hdata.trans hdata', hmap'.trans hmap⟩
      rw [hdata.2.2] at hann'
      refine (hann.trans hann').congr fun line => ?_
      rw [hfirst, Nat.exists_lt_succ_left]
      simp only [Nat.add_assoc, Nat.add_comm 1]

/-! ## All chunks -/

/-- **What a difference does**: the lines that it adds are annotated, and the map of the
older file is filled in, up to its end unless all lines are annotated. -/
theorem blameChanges_spec {n1 n2 : ℕ} (h : blame.Counted)
    (hleft : Covers idx1 (chunks.map fun c => (c.leftStart, c.leftCount)) n1)
    (hright : Covers idx2 (chunks.map fun c => (c.rightStart, c.rightCount)) n2)
    (hgood : ∀ c ∈ chunks, c.Good root)
    (h1 : n1 = blame.linemap1.length) (h2 : n2 = blame.linemap2.length) :
    ∃ blame', blameChanges id chunks idx1 idx2 blame = .ok blame'
      ∧ Annotates id (fun line => ∃ r, Adds chunks r ∧ blame.linemap2[r]? = some (line : ℤ))
        blame blame'
      ∧ SameData blame blame'
      ∧ ∃ k f, idx1 ≤ k ∧ k ≤ n1 ∧ (blame'.nannotated ≠ blame'.nlines → k = n1)
        ∧ FilledIn blame.linemap1 blame'.linemap1 idx1 k f
        ∧ ∀ q, idx1 ≤ q → q < k → CarriedOver chunks blame.linemap2 q (f q) := by
  induction chunks generalizing idx1 idx2 blame with
  | nil =>
    obtain rfl : idx1 = n1 := hleft
    refine ⟨blame, rfl, .refl h fun line _ hr => ?_, SameData.refl _, idx1, fun _ => none, le_rfl,
      le_rfl, fun _ => rfl, .refl _ _ _, fun q hq hk => absurd hk (not_lt.mpr hq)⟩
    obtain ⟨r, ⟨c, hc, -⟩, -⟩ := hr
    exact List.not_mem_nil hc
  | cons c chunks ih =>
    obtain ⟨hl, hleft⟩ := hleft
    obtain ⟨hr, hright⟩ := hright
    dsimp only at hl hr hleft hright
    have hc := hgood c List.mem_cons_self
    have hle1 := covers_le hleft
    have hle2 := covers_le hright
    rw [blameChanges]
    split
    · next hall =>
      have hcount : blame.nannotated = blame.nlines := le_antisymm h.le (not_lt.mp hall)
      have hnone := h.eq_iff.mp hcount
      exact ⟨blame, rfl, .refl h fun line hline => absurd hline (hnone line), SameData.refl _, idx1,
        fun _ => none, le_rfl, by omega, fun hne => absurd hcount hne, .refl _ _ _,
        fun q hq hk => absurd hk (not_lt.mpr hq)⟩
    · have hcarried : ∀ q ln, idx1 + c.leftCount ≤ q → CarriedOver chunks blame.linemap2 q ln →
          CarriedOver (c :: chunks) blame.linemap2 q ln := by
        intro q ln hq h
        refine h.imp (fun ⟨hln, hnot⟩ => ⟨hln, fun r hkeeps => ?_⟩) fun ⟨r, hkeeps, hln⟩ =>
          ⟨r, keeps_cons.mpr (Or.inr hkeeps), hln⟩
        rcases keeps_cons.mp hkeeps with ⟨hne, i, hi, -, rfl⟩ | hkeeps
        · have hcount := (hc.same hne (by omega)).1
          omega
        · exact hnot r hkeeps
      -- a chunk with lines of the older file fills in the map
      have hmap : ∀ idx2' linemap' f, c.leftCount ≠ 0 → c.rightCount + idx2 = idx2' →
          FilledIn blame.linemap1 linemap' idx1 (idx1 + c.leftCount) f →
          (∀ q, idx1 ≤ q → q < idx1 + c.leftCount
          → CarriedOver (c :: chunks) blame.linemap2 q (f q)) →
          ∃ blame', blameChanges id chunks (idx1 + c.leftCount) idx2'
              { blame with linemap1 := linemap' } = .ok blame'
            ∧ Annotates id
              (fun line => ∃ r, Adds (c :: chunks) r ∧ blame.linemap2[r]? = some (line : ℤ))
              blame blame'
            ∧ SameData blame blame'
            ∧ ∃ k f, idx1 ≤ k ∧ k ≤ n1 ∧ (blame'.nannotated ≠ blame'.nlines → k = n1)
              ∧ FilledIn blame.linemap1 blame'.linemap1 idx1 k f
              ∧ ∀ q, idx1 ≤ q → q < k → CarriedOver (c :: chunks) blame.linemap2 q (f q) := by
        rintro idx2' linemap' f hne rfl hf hf'
        rw [Nat.add_comm] at hright
        obtain ⟨blame', heq, hann, hdata, k, g, hk1, hk2, hk, hg, hg'⟩ :=
          @ih { blame with linemap1 := linemap' } (idx1 + c.leftCount) (c.rightCount + idx2)
            ⟨h.length, h.count⟩ hleft hright (fun c' hc' => hgood c' (List.mem_cons_of_mem _ hc'))
            (h1.trans hf.1.symm) h2
        refine ⟨blame', heq, ?_, hdata, k, _, (Nat.le_add_right _ _).trans hk1, hk2, hk,
          hf.trans hg (Nat.le_add_right _ _) hk1, fun q hq hqk => ?_⟩
        · refine Annotates.congr ⟨hann.counted, hann.nlines, hann.new, hann.old⟩ fun line => ?_
          simp only [adds_cons, hne, false_and, false_or]
        · split
          · next hlt => exact hf' q hq hlt
          · next hge => exact hcarried q _ (not_lt.mp hge) (hg' q (not_lt.mp hge) hqk)
      split
      · next hsame =>
        have hne : c.leftCount ≠ 0 := hc.nonempty.elim (fun hne => hne) fun hne => hsame ▸ hne
        obtain ⟨linemap', heq, hf⟩ := keepLines_spec
          (show idx1 + c.leftCount ≤ blame.linemap1.length by omega)
          (show idx2 + c.leftCount ≤ blame.linemap2.length by omega)
        rw [heq, ok_bind]
        refine hmap _ linemap' _ hne (by omega) hf fun q hq hlt => Or.inr ?_
        refine ⟨idx2 + (q - idx1), keeps_cons.mpr (Or.inl ⟨hne, q - idx1, by omega, ?_, ?_⟩), rfl⟩
        · rw [hr]
        · rw [hl]
          omega
      · split
        · next hdrop =>
          have hne : c.leftCount ≠ 0 := hc.nonempty.resolve_right (not_not.mpr hdrop)
          obtain ⟨linemap', heq, hf⟩ := dropLines_spec
            (show idx1 + c.leftCount ≤ blame.linemap1.length by omega)
          rw [heq, ok_bind]
          refine hmap _ linemap' _ hne (by omega) hf fun q hq hlt =>
            Or.inl ⟨rfl, fun r hkeeps => ?_⟩
          rcases keeps_cons.mp hkeeps with ⟨-, i, hi, -, -⟩ | hkeeps
          · omega
          · have hb := hkeeps.bounds hleft hright fun c' hc' =>
              hgood c' (List.mem_cons_of_mem _ hc')
            omega
        · next hne hadd =>
          have hzero : c.leftCount = 0 := not_not.mp fun h => hne (hc.same h hadd).1
          rw [hzero, Nat.add_zero] at hleft
          obtain ⟨next, heq, hann, hdata, hmap1⟩ := @annotateLines_spec ι id blame
            c.rightCount idx2 h (by omega)
          obtain ⟨blame', heq', hann', hdata', k, f, hk1, hk2, hk, hf, hf'⟩ :=
            @ih next idx1 (idx2 + c.rightCount) hann.counted hleft hright
              (fun c' hc' => hgood c' (List.mem_cons_of_mem _ hc')) (hmap1 ▸ h1)
              (by rw [hdata.2.2]; exact h2)
          rw [hdata.2.2] at hann' hf'
          rw [hmap1] at hf
          rw [heq, ok_bind]
          refine ⟨blame', heq', (hann.trans hann').congr fun line => ?_, hdata.trans hdata', k, f,
            hk1, hk2, hk, hf, fun q hq hqk => ?_⟩
          · constructor
            · rintro (⟨i, hi, hline⟩ | ⟨r, hadds, hline⟩)
              · refine ⟨idx2 + i, adds_cons.mpr (Or.inl ⟨hzero, ?_, ?_⟩), hline⟩
                · rw [hr]
                  exact Nat.le_add_right _ _
                · rw [DiffChunk.rightEnd, hr]
                  exact Nat.add_lt_add_left hi _
              · exact ⟨r, adds_cons.mpr (Or.inr hadds), hline⟩
            · rintro ⟨r, hadds, hline⟩
              rcases adds_cons.mp hadds with ⟨-, hle, hlt⟩ | hadds
              · rw [DiffChunk.rightEnd, hr] at hlt
                rw [hr] at hle
                refine Or.inl ⟨r - idx2, by omega, ?_⟩
                rwa [Nat.add_sub_cancel' hle]
              · exact Or.inr ⟨r, hadds, hline⟩
          · exact hcarried q _ (by omega) (hf' q hq hqk)

end Blame

end Got

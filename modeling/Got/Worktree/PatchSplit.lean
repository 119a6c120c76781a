import Got.Worktree.PatchContent

/-!
# Changes that are chosen are split off exactly

`pickLines` is a file that has, of each change, the lines of the one side or of the other, as
it is picked. The old file with the changes that were chosen is such a file, and so is the new
file without them, with everything picked the other way round.

The line numbers of a change are numbers of atoms, and so what is copied as the lines of a
change can be something else. It does no harm if both files are left, and gone over to, at places
that are equally far from where the change starts or ends, with the same bytes in between
(`InStep`): these are copied from the one file or from the other. Whatever has been written then
comes out right when either file is gone on with (`Resumes`), and this is what the loop keeps.

Nothing less will do. If every sequence of answers comes out right, then a no and a yes for a
change, each with a quit behind it, say where its lines start and end (`DealtWith.inStep`). So
the changes are split exactly if and only if those that are decided are in step
(`splitsExactly_iff`). This is about all answers that decide no more changes, as for a single
sequence of answers two changes that are out of step can make up for each other.
-/

namespace Got

/-! ## Parts of a file -/

variable {data : Bytes} {lines : List Bytes} {a b c m n k l r l' r' : ℕ}

theorem lineOffset_le (lines : List Bytes) (n : ℕ) : lineOffset lines n ≤ lines.flatten.length := by
  rw [lineOffset]
  conv_rhs => rw [← List.take_append_drop n lines, List.flatten_append, List.length_append]
  exact Nat.le_add_right _ _

theorem length_bytesBetween (data : Bytes) (hb : b ≤ data.length) :
    (bytesBetween data a b).length = b - a := by
  rw [bytesBetween, List.length_take, List.length_drop]
  omega

theorem leftLines_flatten (left right : Bytes) : (textRoot left right).leftLines.flatten = left :=
  flatten_atoms false left

theorem rightLines_flatten (left right : Bytes) :
    (textRoot left right).rightLines.flatten = right :=
  flatten_atoms false right

theorem lineOffset_textLines_le (data : Bytes) (n : ℕ) :
    lineOffset (textLines data) n ≤ data.length :=
  (lineOffset_le _ n).trans_eq (congrArg List.length (flatten_textLines data))

theorem lineOffset_leftLines_le (left right : Bytes) (n : ℕ) :
    lineOffset (textRoot left right).leftLines n ≤ left.length :=
  (lineOffset_le _ n).trans_eq (congrArg List.length (leftLines_flatten left right))

theorem lineOffset_rightLines_le (left right : Bytes) (n : ℕ) :
    lineOffset (textRoot left right).rightLines n ≤ right.length :=
  (lineOffset_le _ n).trans_eq (congrArg List.length (rightLines_flatten left right))

/-- What has been written is gone on with, by the lines as they are and as they should be. -/
theorem goOn {w out : Bytes} {p₁ q₁ : ℕ} (h : w ++ data.drop a = out ++ data.drop b) (ha : a ≤ p₁)
    (hb : b ≤ q₁) : w ++ bytesBetween data a p₁ ++ data.drop p₁
      = out ++ bytesBetween data b q₁ ++ data.drop q₁ := by
  rw [List.append_assoc, bytesBetween_drop data ha, List.append_assoc, bytesBetween_drop data hb, h]

/-! ## Copying lines -/

/-- **Where a file is being read**: so many lines have been passed. -/
structure ReadsAt (f : InFile) (lineCur : ℕ) (lines : List Bytes) (n : ℕ) : Prop where
  lines_eq : f.lines = lines.drop n
  cur : f.lines ≠ [] → f.eof = false ∧ lineCur = n + 1

@[simp] theorem OutFile.write_nil (f : OutFile) : f.write [] = f := by
  cases f with
  | none => rfl
  | some data => exact congrArg some (List.append_nil data)

theorem OutFile.write_write (f : OutFile) (x y : Bytes) :
    (f.write x).write y = f.write (x ++ y) := by
  cases f with
  | none => rfl
  | some data => exact congrArg some (List.append_assoc data x y)

/-- Nothing is passed if nothing is left. -/
theorem ReadsAt.of_nil {f : InFile} {cur : ℕ} (h : ReadsAt f cur lines n) (hnil : f.lines = [])
    (hle : n ≤ m) {f' : InFile} {cur' : ℕ} (hf' : f'.lines = []) : ReadsAt f' cur' lines m := by
  have hlen : lines.length ≤ n := by
    rw [← List.drop_eq_nil_iff, ← h.lines_eq, hnil]
  exact ⟨by rw [hf', List.drop_of_length_le (hlen.trans hle)], fun hne => absurd hf' hne⟩

/-- **A line is read**, with which the end of the file is met only if it is the last one. -/
theorem ReadsAt.next {line : Bytes} {lines : List Bytes} {eof : Bool} {cur : ℕ}
    (h : ReadsAt ⟨line :: lines, eof⟩ cur (textLines data) n) :
    (textLines data).drop n = line :: lines ∧ eof = false ∧ cur = n + 1
      ∧ ReadsAt ⟨lines, line.getLast? ≠ some 10⟩ (cur + 1) (textLines data) (n + 1) := by
  obtain ⟨heof, hcur⟩ := h.cur (List.cons_ne_nil _ _)
  have hdrop : (textLines data).drop n = line :: lines := h.lines_eq.symm
  refine ⟨hdrop, heof, hcur, ?_, fun hne => ⟨?_, by rw [hcur]⟩⟩
  · show lines = _
    rw [← List.drop_drop, hdrop, List.drop_succ_cons, List.drop_zero]
  · have hlines := textLines_drop data n
    rw [hdrop] at hlines
    rw [getLast?_of_textLines hlines hne]
    rfl

/-- **Lines are copied** up to the one before the bound. -/
theorem copyLinesLoop_spec {turns : ℕ} {f : InFile} {cur bound : ℕ} (outfile : OutFile)
    (h : ReadsAt f cur (textLines data) n) (hturns : f.lines.length < turns) :
    ∃ f' cur', copyLinesLoop bound turns f cur outfile
        = (f', cur', outfile.write (((textLines data).drop n).take (bound - 1 - n)).flatten)
      ∧ ReadsAt f' cur' (textLines data) (max n (bound - 1)) := by
  induction turns generalizing f cur n outfile with
  | zero => exact absurd hturns (Nat.not_lt_zero _)
  | succ turns ih =>
    obtain ⟨lines, eof⟩ := f
    rw [copyLinesLoop]
    cases lines with
    | nil =>
      have hcopied : (((textLines data).drop n).take (bound - 1 - n)).flatten = [] := by
        rw [← h.lines_eq, List.take_nil]
        rfl
      rw [hcopied, OutFile.write_nil]
      split
      · cases turns with
        | zero => exact ⟨_, _, rfl, h.of_nil rfl (le_max_left _ _) rfl⟩
        | succ turns =>
          rw [copyOneLine, InFile.getline]
          dsimp only
          rw [copyLinesLoop, if_neg fun hcond => hcond.1 rfl]
          exact ⟨_, _, rfl, h.of_nil rfl (le_max_left _ _) rfl⟩
      · exact ⟨_, _, rfl, h.of_nil rfl (le_max_left _ _) rfl⟩
    | cons line lines =>
      obtain ⟨hdrop, heof, hcur, hnext⟩ := h.next
      split
      · next hcond =>
        rw [copyOneLine, InFile.getline]
        dsimp only
        obtain ⟨f', cur', heq, hreads⟩ :=
          ih (outfile.write line) hnext (Nat.lt_of_succ_lt_succ hturns)
        have hmax : max (n + 1) (bound - 1) = max n (bound - 1) := by omega
        have htake : bound - 1 - n = bound - 1 - (n + 1) + 1 := by omega
        refine ⟨f', cur', ?_, hmax ▸ hreads⟩
        rw [heq, OutFile.write_write, hdrop, htake, List.take_succ_cons, List.flatten_cons,
          ← hnext.lines_eq]
      · next hcond =>
        rw [not_and, not_lt] at hcond
        have hle : bound ≤ cur := hcond (by rw [heof]; exact Bool.false_ne_true)
        have hzero : bound - 1 - n = 0 := by omega
        have hmax : max n (bound - 1) = n := by omega
        rw [hzero, List.take_zero, List.flatten_nil, OutFile.write_nil, hmax]
        exact ⟨_, _, rfl, h⟩

/-- Lines are copied up to a bound, and the file is read on from there. -/
theorem copyLines_spec {f : InFile} {cur bound : ℕ} (outfile : OutFile)
    (h : ReadsAt f cur (textLines data) n) :
    ∃ f' cur', copyLines bound f cur outfile
        = (f', cur', outfile.write (((textLines data).drop n).take (bound - 1 - n)).flatten)
      ∧ ReadsAt f' cur' (textLines data) (max n (bound - 1)) :=
  copyLinesLoop_spec outfile h (Nat.lt_succ_self _)

/-- **What is left is copied.** -/
theorem copyToEofLoop_spec {turns : ℕ} {f : InFile} {cur : ℕ} (outfile : OutFile)
    (h : ReadsAt f cur (textLines data) n) (hturns : f.lines.length < turns) :
    copyToEofLoop turns f outfile = outfile.write ((textLines data).drop n).flatten := by
  induction turns generalizing f cur n outfile with
  | zero => exact absurd hturns (Nat.not_lt_zero _)
  | succ turns ih =>
    obtain ⟨lines, eof⟩ := f
    rw [copyToEofLoop]
    cases lines with
    | nil =>
      rw [← h.lines_eq, List.flatten_nil, OutFile.write_nil]
      split
      · rfl
      · rw [copyOneLine, InFile.getline]
        dsimp only
        cases turns with
        | zero => rfl
        | succ turns => rw [copyToEofLoop, if_pos rfl]
    | cons line lines =>
      obtain ⟨hdrop, heof, -, hnext⟩ := h.next
      rw [if_neg (by rw [heof]; exact Bool.false_ne_true), copyOneLine, InFile.getline]
      dsimp only
      rw [ih (outfile.write line) hnext (Nat.lt_of_succ_lt_succ hturns), OutFile.write_write, hdrop,
        List.flatten_cons, ← hnext.lines_eq]

/-! ## Going over from one file to the other -/

section Switch

variable {left right w out : Bytes} {p q p' q' : ℕ}

/-- **Going over from the one file to the other** makes no difference at the one place or at the
other one: they are equally far apart in both files, and what is between them is the same. -/
structure SwitchAlike (left right : Bytes) (p p' q q' : ℕ) : Prop where
  apart : q + p' = q' + p
  between : bytesBetween left (min p q) (max p q) = bytesBetween right (min p' q') (max p' q')

instance : Decidable (SwitchAlike left right p p' q q') :=
  decidable_of_iff (q + p' = q' + p
      ∧ bytesBetween left (min p q) (max p q) = bytesBetween right (min p' q') (max p' q'))
    ⟨fun h => ⟨h.1, h.2⟩, fun h => ⟨h.apart, h.between⟩⟩

theorem SwitchAlike.swap (h : SwitchAlike left right p p' q q') :
    SwitchAlike right left p' p q' q :=
  ⟨h.apart.symm, h.between.symm⟩

theorem SwitchAlike.back (h : SwitchAlike left right p p' q q') :
    SwitchAlike left right q q' p p' := by
  refine ⟨by have := h.apart; omega, ?_⟩
  rw [min_comm q, max_comm q, min_comm q', max_comm q']
  exact h.between

/-- What is written before the one place is more than what is written before the other by the
bytes between them. -/
theorem switchAlike_iff_of_le (hle : p ≤ q) (hq : q ≤ left.length) (hp' : p' ≤ right.length)
    (hq' : q' ≤ right.length) (h : w ++ left.drop p = out ++ left.drop q) :
    SwitchAlike left right p p' q q' ↔ w ++ right.drop p' = out ++ right.drop q' := by
  have hout : out = w ++ bytesBetween left p q := by
    rw [← bytesBetween_drop left hle, ← List.append_assoc] at h
    exact (List.append_cancel_right h).symm
  have hlen : out.length = w.length + (q - p) := by
    rw [hout, List.length_append, length_bytesBetween left hq]
  constructor
  · rintro ⟨hapart, hbetween⟩
    have hle' : p' ≤ q' := by omega
    rw [min_eq_left hle, max_eq_right hle, min_eq_left hle', max_eq_right hle'] at hbetween
    rw [hout, hbetween, List.append_assoc, bytesBetween_drop right hle']
  · intro hright
    have hlen' := congrArg List.length hright
    rw [List.length_append, List.length_append, List.length_drop, List.length_drop] at hlen'
    have hle' : p' ≤ q' := by omega
    refine ⟨by omega, ?_⟩
    rw [min_eq_left hle, max_eq_right hle, min_eq_left hle', max_eq_right hle']
    rw [hout, ← bytesBetween_drop right hle', List.append_assoc] at hright
    exact (List.append_cancel_right (List.append_cancel_left hright)).symm

/-- **The two places are alike** if and only if, where the one file comes out right when it is
gone on with, so does the other. -/
theorem switchAlike_iff (hp : p ≤ left.length) (hq : q ≤ left.length) (hp' : p' ≤ right.length)
    (hq' : q' ≤ right.length) (h : w ++ left.drop p = out ++ left.drop q) :
    SwitchAlike left right p p' q q' ↔ w ++ right.drop p' = out ++ right.drop q' := by
  rcases le_total p q with hle | hle
  · exact switchAlike_iff_of_le hle hq hp' hq' h
  · rw [eq_comm]
    exact ⟨fun hswitch => (switchAlike_iff_of_le hle hp hq' hp' h.symm).mp hswitch.back,
      fun hright => ((switchAlike_iff_of_le hle hp hq' hp' h.symm).mpr hright).back⟩

end Switch

/-! ## One change -/

section Change

variable {left right : Bytes} {st : PatchState} {o j : OutFile} {out rej : Bytes}

/-- **What has been written can be gone on with**, in either file: with what is left of its
lines, it is what it should be with what is left of its atoms. -/
structure Resumes (left right : Bytes) (l r : ℕ) (w out : Bytes) : Prop where
  f1 : w ++ left.drop (lineOffset (textLines left) l)
    = out ++ left.drop (lineOffset (textRoot left right).leftLines l)
  f2 : w ++ right.drop (lineOffset (textLines right) r)
    = out ++ right.drop (lineOffset (textRoot left right).rightLines r)

/-- **The changes up to some atoms have been dealt with.** What should have been written is
`out` and `rej`. -/
structure DealtWith (left right : Bytes) (st : PatchState) (l r : ℕ) (o j : OutFile)
    (out rej : Bytes) : Prop where
  f1 : ReadsAt st.f1 st.lineCur1 (textLines left) l
  f2 : ReadsAt st.f2 st.lineCur2 (textLines right) r
  outfile : ∃ w, Resumes left right l r w out ∧ st.outfile = o.write w
  rejectfile : ∃ w, Resumes left right l r w rej ∧ st.rejectfile = j.write w

/-- **The line numbers of a change are in step**: behind the line before it, and behind its last
line, the one file can be left for the other as well as where the change starts and ends. -/
structure InStep (left right : Bytes) (cc : DiffChunkContext) : Prop where
  start : SwitchAlike left right (lineOffset (textLines left) (cc.left.start - 1))
    (lineOffset (textLines right) (cc.right.start - 1))
    (lineOffset (textRoot left right).leftLines cc.left.start)
    (lineOffset (textRoot left right).rightLines cc.right.start)
  end_ : SwitchAlike left right (lineOffset (textLines left) cc.left.end_)
    (lineOffset (textLines right) cc.right.end_)
    (lineOffset (textRoot left right).leftLines cc.left.end_)
    (lineOffset (textRoot left right).rightLines cc.right.end_)

theorem DealtWith.swap (h : DealtWith left right st l r o j out rej) :
    DealtWith left right st.swap l r j o rej out :=
  ⟨h.f1, h.f2, h.rejectfile, h.outfile⟩

/-- What is copied of a change: first what leads up to it, then one of the two sides. -/
theorem copyChange_spec {l₁ l₂ r₁ r₂ : ℕ} (hf1 : ReadsAt st.f1 st.lineCur1 (textLines left) l)
    (hf2 : ReadsAt st.f2 st.lineCur2 (textLines right) r) (hl : l ≤ l₁ - 1) (hl' : l₁ ≤ l₂)
    (hr : r ≤ r₁ - 1) (hr' : r₁ ≤ r₂) :
    let st' := copyChange st l₁ l₂ r₁ r₂
    ReadsAt st'.f1 st'.lineCur1 (textLines left) l₂
      ∧ ReadsAt st'.f2 st'.lineCur2 (textLines right) r₂
      ∧ st'.outfile = st.outfile.write
        (bytesBetween left (lineOffset (textLines left) l) (lineOffset (textLines left) (l₁ - 1))
          ++ bytesBetween right (lineOffset (textLines right) (r₁ - 1))
            (lineOffset (textLines right) r₂))
      ∧ st'.rejectfile = st.rejectfile.write
        (bytesBetween right (lineOffset (textLines right) r) (lineOffset (textLines right) (r₁ - 1))
          ++ bytesBetween left (lineOffset (textLines left) (l₁ - 1))
            (lineOffset (textLines left) l₂)) := by
  obtain ⟨f1, cur1, heq1, hf1⟩ := @copyLines_spec left l st.f1 st.lineCur1 l₁ st.outfile hf1
  obtain ⟨f2, cur2, heq2, hf2⟩ := @copyLines_spec right r st.f2 st.lineCur2 r₁ st.rejectfile hf2
  rw [max_eq_right hl] at hf1
  rw [max_eq_right hr] at hf2
  obtain ⟨f2', cur2', heq3, hf2'⟩ := @copyLines_spec right (r₁ - 1) f2 cur2 (r₂ + 1)
    (st.outfile.write (((textLines left).drop l).take (l₁ - 1 - l)).flatten) hf2
  obtain ⟨f1', cur1', heq4, hf1'⟩ := @copyLines_spec left (l₁ - 1) f1 cur1 (l₂ + 1)
    (st.rejectfile.write (((textLines right).drop r).take (r₁ - 1 - r)).flatten) hf1
  rw [Nat.add_sub_cancel] at heq3 heq4 hf1' hf2'
  rw [max_eq_right (by omega)] at hf1' hf2'
  simp only [copyChange, heq1, heq2, heq3, heq4]
  refine ⟨hf1', hf2', ?_, ?_⟩
  · rw [OutFile.write_write, flatten_take_drop _ hl, flatten_take_drop _ (by omega),
      flatten_textLines, flatten_textLines]
  · rw [OutFile.write_write, flatten_take_drop _ hr, flatten_take_drop _ (by omega),
      flatten_textLines, flatten_textLines]

/-- The lines leading up to a change and the lines of the change are written. -/
theorem goOn_switch {f g w out : Bytes} {p₀ q₀ p q p' q' p₁ q₁ : ℕ}
    (h : w ++ f.drop p₀ = out ++ f.drop q₀) (hp₀ : p₀ ≤ p) (hq₀ : q₀ ≤ q)
    (hswitch : SwitchAlike f g p p' q q') (hp : p ≤ f.length) (hq : q ≤ f.length)
    (hp' : p' ≤ g.length) (hq' : q' ≤ g.length) (hp₁ : p' ≤ p₁) (hq₁ : q' ≤ q₁) :
    w ++ (bytesBetween f p₀ p ++ bytesBetween g p' p₁) ++ g.drop p₁
      = out ++ (bytesBetween f q₀ q ++ bytesBetween g q' q₁) ++ g.drop q₁ := by
  have hup := (switchAlike_iff hp hq hp' hq' (goOn h hp₀ hq₀)).mp hswitch
  rw [← List.append_assoc, ← List.append_assoc]
  exact goOn hup hp₁ hq₁

theorem Resumes.swap {w : Bytes} (h : Resumes left right l r w out) :
    Resumes right left r l w out :=
  ⟨h.f2, h.f1⟩

/-- **A change with what leads up to it**, the one from the file on the left and the other from
the file on the right. -/
theorem Resumes.change {l₁ l₂ r₁ r₂ : ℕ} {c : DiffRange} {w : Bytes}
    (h : Resumes left right l r w out)
    (hstep : InStep left right ⟨c, ⟨l₁, l₂⟩, ⟨r₁, r₂⟩⟩) (hl : l ≤ l₁ - 1) (hr' : r₁ ≤ r₂)
    (hsame : bytesBetween left (lineOffset (textRoot left right).leftLines l)
        (lineOffset (textRoot left right).leftLines l₁)
      = bytesBetween right (lineOffset (textRoot left right).rightLines r)
        (lineOffset (textRoot left right).rightLines r₁)) (hr : r ≤ r₁) :
    Resumes left right l₂ r₂
      (w ++ (bytesBetween left (lineOffset (textLines left) l)
          (lineOffset (textLines left) (l₁ - 1))
        ++ bytesBetween right (lineOffset (textLines right) (r₁ - 1))
          (lineOffset (textLines right) r₂)))
      (out ++ bytesBetween right (lineOffset (textRoot left right).rightLines r)
        (lineOffset (textRoot left right).rightLines r₂)) := by
  have hright := goOn_switch h.f1 (lineOffset_mono _ hl)
    (lineOffset_mono _ (hl.trans (Nat.sub_le l₁ 1))) hstep.start (lineOffset_textLines_le _ _)
    (lineOffset_leftLines_le _ _ _) (lineOffset_textLines_le _ _) (lineOffset_rightLines_le _ _ _)
    (lineOffset_mono _ ((Nat.sub_le r₁ 1).trans hr')) (lineOffset_mono _ hr')
  rw [hsame, bytesBetween_append right (lineOffset_mono _ hr) (lineOffset_mono _ hr')] at hright
  exact ⟨(switchAlike_iff (lineOffset_textLines_le _ _) (lineOffset_rightLines_le _ _ _)
    (lineOffset_textLines_le _ _) (lineOffset_leftLines_le _ _ _) hright).mp hstep.end_.swap,
    hright⟩

theorem InStep.swap {l₁ l₂ r₁ r₂ : ℕ} {c : DiffRange}
    (h : InStep left right ⟨c, ⟨l₁, l₂⟩, ⟨r₁, r₂⟩⟩) :
    InStep right left ⟨c, ⟨r₁, r₂⟩, ⟨l₁, l₂⟩⟩ :=
  ⟨h.start.swap, h.end_.swap⟩

/-- **A change that is answered with yes** comes with what leads up to it. -/
theorem DealtWith.change {l₁ l₂ r₁ r₂ : ℕ} {c : DiffRange}
    (h : DealtWith left right st l r o j out rej)
    (hstep : InStep left right ⟨c, ⟨l₁, l₂⟩, ⟨r₁, r₂⟩⟩) (hl : l ≤ l₁ - 1) (hl' : l₁ ≤ l₂)
    (hr : r ≤ r₁ - 1) (hr' : r₁ ≤ r₂)
    (hsame : bytesBetween left (lineOffset (textRoot left right).leftLines l)
        (lineOffset (textRoot left right).leftLines l₁)
      = bytesBetween right (lineOffset (textRoot left right).rightLines r)
        (lineOffset (textRoot left right).rightLines r₁)) :
    DealtWith left right (copyChange st l₁ l₂ r₁ r₂) l₂ r₂ o j
      (out ++ bytesBetween right (lineOffset (textRoot left right).rightLines r)
        (lineOffset (textRoot left right).rightLines r₂))
      (rej ++ bytesBetween left (lineOffset (textRoot left right).leftLines l)
        (lineOffset (textRoot left right).leftLines l₂)) := by
  obtain ⟨hf1, hf2, hout, hrej⟩ := copyChange_spec h.f1 h.f2 hl hl' hr hr'
  obtain ⟨w, hw, houtfile⟩ := h.outfile
  obtain ⟨w', hw', hrejectfile⟩ := h.rejectfile
  have hl₁ : l ≤ l₁ := hl.trans (Nat.sub_le l₁ 1)
  have hr₁ : r ≤ r₁ := hr.trans (Nat.sub_le r₁ 1)
  refine ⟨hf1, hf2, ⟨_, hw.change hstep hl hr' hsame hr₁, ?_⟩, _,
    (hw'.swap.change hstep.swap hr hl' hsame.symm hl₁).swap, ?_⟩
  · rw [hout, houtfile, OutFile.write_write]
  · rw [hrej, hrejectfile, OutFile.write_write]

/-- **What is left of both files is copied.** -/
theorem DealtWith.remaining (h : DealtWith left right st l r o j out rej) :
    copyRemainingContent st
      = (o.write (out ++ left.drop (lineOffset (textRoot left right).leftLines l)),
        j.write (rej ++ right.drop (lineOffset (textRoot left right).rightLines r))) := by
  obtain ⟨w, hw, houtfile⟩ := h.outfile
  obtain ⟨w', hw', hrejectfile⟩ := h.rejectfile
  rw [copyRemainingContent, copyToEofLoop_spec _ h.f1 (Nat.lt_succ_self _),
    copyToEofLoop_spec _ h.f2 (Nat.lt_succ_self _), houtfile, hrejectfile, OutFile.write_write,
    OutFile.write_write, ← drop_lineOffset, ← drop_lineOffset, flatten_textLines, flatten_textLines,
    hw.f1, hw'.f2]

end Change

/-! ## Picking a side for each change -/

section Pick

variable {root : DiffRoot} {pick : ℕ → Bool} {chunks hunk same rest : List DiffChunk}
  {inChange : Bool}

/-- The lines of a chunk on the left. -/
def DiffRoot.leftOf (root : DiffRoot) (c : DiffChunk) : Bytes :=
  ((root.leftLines.drop c.leftStart).take c.leftCount).flatten

/-- The lines of a chunk on the right. -/
def DiffRoot.rightOf (root : DiffRoot) (c : DiffChunk) : Bytes :=
  ((root.rightLines.drop c.rightStart).take c.rightCount).flatten

/-- **A file with one side or the other of each change.** Chunks that follow each other are one
change, and changes are counted from a number on. -/
def pickLines (root : DiffRoot) (pick : ℕ → Bool) : ℕ → Bool → List DiffChunk → Bytes
  | _, _, [] => []
  | k, inChange, c :: chunks =>
    if c.isChange then
      (if pick k then root.rightOf c else root.leftOf c) ++ pickLines root pick k true chunks
    else
      root.leftOf c ++ pickLines root pick (if inChange then k + 1 else k) false chunks

/-- The bytes of a chunk on the left. -/
theorem leftOf_eq (root : DiffRoot) (c : DiffChunk) :
    root.leftOf c = bytesBetween root.leftLines.flatten (lineOffset root.leftLines c.leftStart)
      (lineOffset root.leftLines c.leftEnd) := by
  have h := flatten_take_drop root.leftLines (Nat.le_add_right c.leftStart c.leftCount)
  rwa [Nat.add_sub_cancel_left] at h

theorem rightOf_eq (root : DiffRoot) (c : DiffChunk) :
    root.rightOf c = bytesBetween root.rightLines.flatten
      (lineOffset root.rightLines c.rightStart) (lineOffset root.rightLines c.rightEnd) := by
  have h := flatten_take_drop root.rightLines (Nat.le_add_right c.rightStart c.rightCount)
  rwa [Nat.add_sub_cancel_left] at h

/-- A chunk that is the same on both sides. -/
theorem leftOf_eq_rightOf {c : DiffChunk} (hws : root.ignoreWhitespace = false) (hc : c.Good root)
    (hsame : c.isChange = false) : root.leftOf c = root.rightOf c :=
  congrArg List.flatten (hc.same_lines hsame hws)

/-- What is picked before the first change does not matter. -/
theorem pickLines_congr {pick' : ℕ → Bool} (h : ∀ m, k ≤ m → pick m = pick' m) :
    pickLines root pick k inChange chunks = pickLines root pick' k inChange chunks := by
  induction chunks generalizing k inChange with
  | nil => rfl
  | cons c chunks ih =>
    rw [pickLines, pickLines, h k le_rfl, ih h,
      ih fun m hm => h m (le_trans (by split <;> omega) hm)]

/-- **With nothing picked** it is the file on the left. -/
theorem pickLines_left (hs : Stretch root l r chunks l' r') (hpick : ∀ m, k ≤ m → pick m = false) :
    pickLines root pick k inChange chunks = bytesBetween root.leftLines.flatten
      (lineOffset root.leftLines l) (lineOffset root.leftLines l') := by
  induction chunks generalizing l r k inChange with
  | nil =>
    obtain ⟨rfl, rfl⟩ := Stretch.nil_iff.mp hs
    rw [bytesBetween, Nat.sub_self, List.take_zero]
    rfl
  | cons c chunks ih =>
    obtain ⟨rfl, rfl, -, hs⟩ := Stretch.cons_iff.mp hs
    have hmono := lineOffset_mono root.leftLines (Nat.le_add_right c.leftStart c.leftCount)
    have hmono' := lineOffset_mono root.leftLines hs.le.1
    rw [← bytesBetween_append _ hmono hmono', ← DiffChunk.leftEnd, ← leftOf_eq, pickLines]
    split
    · rw [if_neg (by rw [hpick k le_rfl]; exact Bool.false_ne_true), ih hs hpick]
    · rw [ih hs fun m hm => hpick m (le_trans (by split <;> omega) hm)]

/-- **With everything picked** it is the file on the right. -/
theorem pickLines_right (hws : root.ignoreWhitespace = false) (hs : Stretch root l r chunks l' r')
    (hpick : ∀ m, k ≤ m → pick m = true) :
    pickLines root pick k inChange chunks = bytesBetween root.rightLines.flatten
      (lineOffset root.rightLines r) (lineOffset root.rightLines r') := by
  induction chunks generalizing l r k inChange with
  | nil =>
    obtain ⟨rfl, rfl⟩ := Stretch.nil_iff.mp hs
    rw [bytesBetween, Nat.sub_self, List.take_zero]
    rfl
  | cons c chunks ih =>
    obtain ⟨rfl, rfl, hc, hs⟩ := Stretch.cons_iff.mp hs
    have hmono := lineOffset_mono root.rightLines (Nat.le_add_right c.rightStart c.rightCount)
    have hmono' := lineOffset_mono root.rightLines hs.le.2.1
    rw [← bytesBetween_append _ hmono hmono', ← DiffChunk.rightEnd, ← rightOf_eq, pickLines]
    split
    · rw [if_pos (hpick k le_rfl), ih hs hpick]
    · next hchange =>
      rw [leftOf_eq_rightOf hws hc (Bool.eq_false_iff.mpr hchange),
        ih hs fun m hm => hpick m (le_trans (by split <;> omega) hm)]

/-- What comes before a change. -/
theorem pickLines_sames (hs : Stretch root l r same l' r')
    (hsame : ∀ c ∈ same, c.isChange = false) :
    pickLines root pick k false (same ++ rest)
      = bytesBetween root.leftLines.flatten (lineOffset root.leftLines l)
          (lineOffset root.leftLines l') ++ pickLines root pick k false rest := by
  induction same generalizing l r with
  | nil =>
    obtain ⟨rfl, rfl⟩ := Stretch.nil_iff.mp hs
    rw [bytesBetween, Nat.sub_self, List.take_zero]
    rfl
  | cons c same ih =>
    obtain ⟨rfl, rfl, -, hs⟩ := Stretch.cons_iff.mp hs
    have hmono := lineOffset_mono root.leftLines (Nat.le_add_right c.leftStart c.leftCount)
    have hmono' := lineOffset_mono root.leftLines hs.le.1
    rw [← bytesBetween_append _ hmono hmono', ← DiffChunk.leftEnd, ← leftOf_eq, List.append_assoc,
      ← ih hs fun c' hc' => hsame c' (List.mem_cons_of_mem _ hc'), List.cons_append, pickLines,
      if_neg (by rw [hsame c List.mem_cons_self]; exact Bool.false_ne_true)]
    rfl

/-- **One change.** -/
theorem pickLines_change (hs : Stretch root l r hunk l' r') (hhunk : ∀ c ∈ hunk, c.isChange) :
    pickLines root pick k inChange (hunk ++ rest)
      = (if pick k then bytesBetween root.rightLines.flatten (lineOffset root.rightLines r)
            (lineOffset root.rightLines r')
          else bytesBetween root.leftLines.flatten (lineOffset root.leftLines l)
            (lineOffset root.leftLines l'))
        ++ pickLines root pick k (inChange || !hunk.isEmpty) rest := by
  induction hunk generalizing l r inChange with
  | nil =>
    obtain ⟨rfl, rfl⟩ := Stretch.nil_iff.mp hs
    simp [bytesBetween]
  | cons c hunk ih =>
    obtain ⟨rfl, rfl, -, hs⟩ := Stretch.cons_iff.mp hs
    have hmono := lineOffset_mono root.leftLines (Nat.le_add_right c.leftStart c.leftCount)
    have hmono' := lineOffset_mono root.leftLines hs.le.1
    have hmono2 := lineOffset_mono root.rightLines (Nat.le_add_right c.rightStart c.rightCount)
    have hmono2' := lineOffset_mono root.rightLines hs.le.2.1
    rw [← bytesBetween_append _ hmono hmono', ← bytesBetween_append _ hmono2 hmono2',
      ← DiffChunk.leftEnd, ← DiffChunk.rightEnd, ← leftOf_eq, ← rightOf_eq, List.cons_append,
      pickLines, if_pos (hhunk c List.mem_cons_self),
      ih hs fun c' hc' => hhunk c' (List.mem_cons_of_mem _ hc')]
    have hflag : (inChange || !(c :: hunk).isEmpty) = true := by simp
    rw [hflag, Bool.true_or]
    split
    · rw [List.append_assoc]
    · rw [List.append_assoc]

end Pick

/-! ## All changes -/

section Run

variable {left right : Bytes} {st : PatchState} {o j : OutFile} {out rej : Bytes}
  {chunks pend same hunk rest : List DiffChunk} {ccs : List DiffChunkContext}
  {patchCb : ℕ → PatchChoice} {i l₀ r₀ : ℕ}

/-- **Chunks that are the same on both sides** are the same bytes. -/
theorem same_bytes (hs : Stretch (textRoot left right) l r same l' r')
    (hsame : ∀ c ∈ same, c.isChange = false) :
    bytesBetween left (lineOffset (textRoot left right).leftLines l)
        (lineOffset (textRoot left right).leftLines l')
      = bytesBetween right (lineOffset (textRoot left right).rightLines r)
        (lineOffset (textRoot left right).rightLines r') := by
  have hleft := @pickLines_sames 0 l r l' r' (textRoot left right) (fun _ => true) same [] hs hsame
  have hright := @pickLines_right 0 l r l' r' (textRoot left right)
    (fun _ => true) same false rfl hs
    fun _ _ => rfl
  rw [List.append_nil, leftLines_flatten, pickLines, List.append_nil] at hleft
  rw [rightLines_flatten, hleft] at hright
  exact hright

/-- **Whether a change has been chosen**: it was answered with yes, and there was no quit
before. -/
def chosen (patchCb : ℕ → PatchChoice) (i : ℕ) : Bool :=
  patchCb i = .yes ∧ ∀ m < i, m = 0 ∨ patchCb m ≠ .quit

/-- Behind a change there is nothing, or a chunk that is the same on both sides. -/
theorem behind_change {root : DiffRoot} (hs : Stretch root l r rest l' r')
    (hrest : ∀ c ∈ rest.head?, c.isChange = false) (h : Hunks root 0 n l r rest ccs) :
    ∃ pend rest' l₃ r₃, rest = pend ++ rest' ∧ pend.length = (if rest = [] then 0 else 1)
      ∧ (∀ c ∈ pend, c.isChange = false) ∧ (rest' ≠ [] → pend ≠ []) ∧ Stretch root l r pend l₃ r₃
      ∧ Stretch root l₃ r₃ rest' l' r' ∧ Hunks root 0 (n + pend.length) l₃ r₃ rest' ccs
      ∧ ∀ pick k, pickLines root pick k true rest
        = bytesBetween root.leftLines.flatten (lineOffset root.leftLines l)
            (lineOffset root.leftLines l₃) ++ pickLines root pick (k + 1) false rest' := by
  cases rest with
  | nil =>
    refine ⟨[], [], l, r, rfl, rfl, fun c hc => absurd hc List.not_mem_nil, fun h => absurd rfl h,
      Stretch.nil_iff.mpr ⟨rfl, rfl⟩, hs, h, fun pick k => ?_⟩
    rw [bytesBetween, Nat.sub_self, List.take_zero]
    rfl
  | cons c rest =>
    have hc := hrest c rfl
    obtain ⟨rfl, rfl, hgood, hs⟩ := Stretch.cons_iff.mp hs
    refine ⟨[c], rest, c.leftEnd, c.rightEnd, rfl, by rw [if_neg (List.cons_ne_nil _ _)]; rfl,
      fun c' hc' => List.mem_singleton.mp hc' ▸ hc, fun _ => List.cons_ne_nil _ _,
      Stretch.single hgood, hs, ?_, fun pick k => ?_⟩
    · generalize hchunks : c :: rest = chunks at h
      cases h with
      | nil => cases hchunks
      | same hc' h =>
        obtain ⟨rfl, rfl⟩ := List.cons.inj hchunks
        exact h
      | hunk hhunk hapart h =>
        -- a hunk would begin with a change
        obtain ⟨c', hc', hchange⟩ := hhunk.first
        have hhead := congrArg List.head? hchunks
        rw [List.mem_head?_append_of_mem_head? hc'] at hhead
        obtain rfl := Option.some.inj hhead
        rw [hc] at hchange
        exact absurd hchange Bool.false_ne_true
    · rw [← leftOf_eq, pickLines, if_neg (by rw [hc]; exact Bool.false_ne_true), if_pos rfl]

/-- Nothing is copied for no change. -/
theorem DealtWith.copyChange_zero (h : DealtWith left right st l r o j out rej) :
    DealtWith left right (copyChange st 0 0 0 0) l r o j out rej := by
  obtain ⟨f1, cur1, heq1, hf1⟩ := @copyLines_spec left l st.f1 st.lineCur1 0 st.outfile h.f1
  obtain ⟨f2, cur2, heq2, hf2⟩ := @copyLines_spec right r st.f2 st.lineCur2 0 st.rejectfile h.f2
  simp only [Nat.zero_sub, List.take_zero, List.flatten_nil, OutFile.write_nil] at heq1 heq2
  rw [max_eq_left (Nat.zero_le _)] at hf1 hf2
  obtain ⟨f2', cur2', heq3, hf2'⟩ := @copyLines_spec right r f2 cur2 1 st.outfile hf2
  obtain ⟨f1', cur1', heq4, hf1'⟩ := @copyLines_spec left l f1 cur1 1 st.rejectfile hf1
  simp only [Nat.sub_self, Nat.zero_sub, List.take_zero, List.flatten_nil, OutFile.write_nil]
    at heq3 heq4
  rw [max_eq_left (Nat.zero_le _)] at hf1' hf2'
  have hst : copyChange st 0 0 0 0 = ⟨f1', f2', cur1', cur2', st.outfile, st.rejectfile⟩ := by
    simp only [copyChange, heq1, heq2, heq3, heq4]
  rw [hst]
  exact ⟨hf1', hf2', h.outfile, h.rejectfile⟩

theorem lineOffset_length (lines : List Bytes) :
    lineOffset lines lines.length = lines.flatten.length := by
  rw [lineOffset, List.take_length]

theorem lineOffset_leftLines (left right : Bytes) :
    lineOffset (textRoot left right).leftLines (textRoot left right).left.length = left.length := by
  rw [← DiffRoot.length_leftLines, lineOffset_length, leftLines_flatten]

theorem lineOffset_rightLines (left right : Bytes) :
    lineOffset (textRoot left right).rightLines (textRoot left right).right.length
      = right.length := by
  rw [← DiffRoot.length_rightLines, lineOffset_length, rightLines_flatten]

theorem bytesBetween_length (data : Bytes) (a : ℕ) :
    bytesBetween data a data.length = data.drop a := by
  rw [bytesBetween, List.take_of_length_le]
  rw [List.length_drop]

/-- **What comes of the changes from a number on**, with what leads up to them. -/
structure Picked (left right : Bytes) (patchCb : ℕ → PatchChoice) (result result' : PatchResult)
    (o j : OutFile) (out rej lead : Bytes) (i : ℕ) (rest : List DiffChunk) : Prop where
  content : copyRemainingContent result'.st
    = (o.write (out ++ (lead ++ pickLines (textRoot left right) (chosen patchCb)
      (i + 1) false rest)),
      j.write (rej ++ (lead
        ++ pickLines (textRoot left right) (fun m => !chosen patchCb m) (i + 1) false rest)))
  noneChosen : result'.haveContent = false → result.haveContent = false
    ∧ ∀ f : Bool → Bool,
      pickLines (textRoot left right) (fun m => f (chosen patchCb m)) (i + 1) false rest
        = pickLines (textRoot left right) (fun _ => f false) (i + 1) false rest
  allChosen : result'.haveRejectedContent = false → result.haveRejectedContent = false
    ∧ ∀ f : Bool → Bool,
      pickLines (textRoot left right) (fun m => f (chosen patchCb m)) (i + 1) false rest
        = pickLines (textRoot left right) (fun _ => f true) (i + 1) false rest

variable {result result' : PatchResult}

/-- Without another change, what is left is the same in both files. -/
theorem DealtWith.picked_tail (hst : DealtWith left right result'.st l₀ r₀ o j out rej)
    (hpend : Stretch (textRoot left right) l₀ r₀ pend l r) (hpends : ∀ c ∈ pend, c.isChange = false)
    (hs : Stretch (textRoot left right) l r rest (textRoot left right).left.length
      (textRoot left right).right.length) (hrest : ∀ c ∈ rest, c.isChange = false)
    (hcontent : result'.haveContent = false → result.haveContent = false)
    (hrejected : result'.haveRejectedContent = false → result.haveRejectedContent = false) :
    Picked left right patchCb result result' o j out rej
      (bytesBetween left (lineOffset (textRoot left right).leftLines l₀)
        (lineOffset (textRoot left right).leftLines l)) i rest := by
  have hall : ∀ c ∈ pend ++ rest, c.isChange = false := fun c hc =>
    (List.mem_append.mp hc).elim (hpends c) (hrest c)
  have hsame := same_bytes (Stretch.append_iff.mpr ⟨l, r, hpend, hs⟩) hall
  have hpick : ∀ pick, pickLines (textRoot left right) pick (i + 1) false rest
      = left.drop (lineOffset (textRoot left right).leftLines l) := by
    intro pick
    have h := @pickLines_sames (i + 1) l r _ _ (textRoot left right) pick rest [] hs hrest
    rwa [List.append_nil, pickLines, List.append_nil, leftLines_flatten, lineOffset_leftLines,
      bytesBetween_length] at h
  have hmono := lineOffset_mono (textRoot left right).leftLines hpend.le.1
  rw [lineOffset_leftLines, lineOffset_rightLines, bytesBetween_length, bytesBetween_length]
    at hsame
  refine ⟨?_, fun h => ⟨hcontent h, fun f => (hpick _).trans (hpick _).symm⟩,
    fun h => ⟨hrejected h, fun f => (hpick _).trans (hpick _).symm⟩⟩
  rw [hst.remaining, hpick, hpick, bytesBetween_drop left hmono, hsame]

/-- **The changes that are not dealt with are not chosen.** -/
theorem DealtWith.picked_quit (hst : DealtWith left right result'.st l₀ r₀ o j out rej)
    (hpend : Stretch (textRoot left right) l₀ r₀ pend l r) (hpends : ∀ c ∈ pend, c.isChange = false)
    (hs : Stretch (textRoot left right) l r rest (textRoot left right).left.length
      (textRoot left right).right.length)
    (hchosen : ∀ m, i + 1 ≤ m → chosen patchCb m = false)
    (hcontent : result'.haveContent = false → result.haveContent = false)
    (hrejected : result'.haveRejectedContent = true) :
    Picked left right patchCb result result' o j out rej
      (bytesBetween left (lineOffset (textRoot left right).leftLines l₀)
        (lineOffset (textRoot left right).leftLines l)) i rest := by
  have hleft := @pickLines_left (i + 1) l r _ _ (textRoot left right) (chosen patchCb) rest false hs
    hchosen
  have hright := @pickLines_right (i + 1) l r _ _ (textRoot left right)
    (fun m => !chosen patchCb m) rest false rfl hs fun m hm => by rw [hchosen m hm]; rfl
  rw [leftLines_flatten, lineOffset_leftLines, bytesBetween_length] at hleft
  rw [rightLines_flatten, lineOffset_rightLines, bytesBetween_length] at hright
  have hlead := same_bytes hpend hpends
  have hmono := lineOffset_mono (textRoot left right).leftLines hpend.le.1
  have hmono' := lineOffset_mono (textRoot left right).rightLines hpend.le.2.1
  refine ⟨?_, fun h => ⟨hcontent h, fun f => pickLines_congr fun m hm => congrArg f (hchosen m hm)⟩,
    fun h => absurd hrejected (by rw [h]; decide)⟩
  rw [hst.remaining, hleft, hright, bytesBetween_drop left hmono, hlead,
    bytesBetween_drop right hmono']

theorem stretchContext_zero {root : DiffRoot} (hl : l' ≤ root.left.length)
    (hr : r' ≤ root.right.length) (i k : ℕ) :
    stretchContext root 0 i k l r l' r' = ⟨⟨i, i + k⟩, ⟨l, l'⟩, ⟨r, r'⟩⟩ := by
  rw [stretchContext, Nat.sub_zero, Nat.sub_zero, Nat.add_zero, Nat.add_zero, min_eq_right hl,
    min_eq_right hr]

theorem patchLoop_end {root : DiffRoot} (hn : ¬n < chunks.length) (fuel i : ℕ)
    (result : PatchResult) : patchLoop root chunks patchCb fuel n i result = .ok result := by
  cases fuel with
  | zero => rfl
  | succ fuel => rw [patchLoop, if_neg hn]

/-- Without another change, an answer makes no difference. -/
theorem DealtWith.apply_none (h : DealtWith left right st l r o j out rej)
    (hdrop : chunks.drop n = rest) (hrest : ∀ c ∈ rest, c.isChange = false) {choice : PatchChoice}
    (hchoice : choice ≠ .none) :
    ∃ st', applyOrRejectChange (textRoot left right) chunks n choice st = .ok (rest.length, st')
      ∧ DealtWith left right st' l r o j out rej := by
  unfold applyOrRejectChange
  rw [hdrop, loadChange_none 0 hrest, loadChange_none 3 hrest]
  cases choice with
  | none => exact absurd rfl hchoice
  | yes => exact ⟨_, rfl, h.copyChange_zero⟩
  | no => exact ⟨_, rfl, h.swap.copyChange_zero.swap⟩
  | quit => exact ⟨_, rfl, h⟩

/-- **A change that has been answered**, before those that come behind it. -/
theorem Picked.cons {result₁ : PatchResult} {new old out₁ rej₁ lead lead' : Bytes}
    {rest' : List DiffChunk}
    (h : Picked left right patchCb result₁ result' o j (out ++ out₁) (rej ++ rej₁) lead' (i + 1)
      rest')
    (hout : out₁ = if chosen patchCb (i + 1) then new else old)
    (hrej : rej₁ = if chosen patchCb (i + 1) then old else new)
    (hkey : ∀ pick, lead ++ pickLines (textRoot left right) pick (i + 1) false rest
      = (if pick (i + 1) then new else old)
        ++ (lead' ++ pickLines (textRoot left right) pick (i + 1 + 1) false rest'))
    (hcongr : ∀ pick pick' : ℕ → Bool, pick (i + 1) = pick' (i + 1) →
      pickLines (textRoot left right) pick (i + 1 + 1) false rest'
        = pickLines (textRoot left right) pick' (i + 1 + 1) false rest' →
      pickLines (textRoot left right) pick (i + 1) false rest
        = pickLines (textRoot left right) pick' (i + 1) false rest)
    (hcontent : result₁.haveContent = false → result.haveContent = false
      ∧ chosen patchCb (i + 1) = false)
    (hrejected : result₁.haveRejectedContent = false → result.haveRejectedContent = false
      ∧ chosen patchCb (i + 1) = true) :
    Picked left right patchCb result result' o j out rej lead i rest := by
  refine ⟨?_, fun hnone => ?_, fun hall => ?_⟩
  · rw [h.content, hkey, hkey, List.append_assoc, List.append_assoc, hout, hrej]
    cases chosen patchCb (i + 1) <;> rfl
  · obtain ⟨hnone, hpick⟩ := h.noneChosen hnone
    obtain ⟨hnone, hchosen⟩ := hcontent hnone
    exact ⟨hnone, fun f => hcongr _ _ (congrArg f hchosen) (hpick f)⟩
  · obtain ⟨hall, hpick⟩ := h.allChosen hall
    obtain ⟨hall, hchosen⟩ := hrejected hall
    exact ⟨hall, fun f => hcongr _ _ (congrArg f hchosen) (hpick f)⟩

/-! ## The turns of the loop -/

/-- **Where the loop is**: behind the chunks that are dealt with there may be a chunk that is the
same on both sides, which has been used up with the change before it. -/
structure AtTurn (left right : Bytes) (chunks : List DiffChunk) (fuel n l₀ r₀ l r : ℕ)
    (pend rest : List DiffChunk) (ccs : List DiffChunkContext) : Prop where
  drop : chunks.drop n = rest
  fuel : rest.length ≤ fuel
  passed : Stretch (textRoot left right) l₀ r₀ pend l r
  same : ∀ c ∈ pend, c.isChange = false
  start : rest ≠ [] → pend ≠ [] ∨ l₀ = 0 ∧ r₀ = 0
  stretch : Stretch (textRoot left right) l r rest (textRoot left right).left.length
    (textRoot left right).right.length
  hunks : Hunks (textRoot left right) 0 n l r rest ccs

/-- **The change that comes next**, atoms `l₁` to `l₂` on the left and `r₁` to `r₂` on the right,
as it is loaded and as it is picked. Up to `l₃` nothing is changed behind it. -/
structure ChangeNext (left right : Bytes) (n l₀ r₀ l l₁ l₂ r₁ r₂ l₃ used : ℕ)
    (rest rest' : List DiffChunk) (c : DiffRange) : Prop where
  load : (diffChunkContextLoadChange (textRoot left right) 0 n rest none 0).1
    = some ⟨c, ⟨l₁, l₂⟩, ⟨r₁, r₂⟩⟩
  used : (diffChunkContextLoadChange (textRoot left right) 3 n rest none 0).2 = used
  left_le : l₀ ≤ l ∧ l ≤ l₁ ∧ l₀ ≤ l₁ - 1 ∧ l₁ ≤ l₂
  right_le : r₀ ≤ r₁ - 1 ∧ r₁ ≤ r₂
  common : bytesBetween left (lineOffset (textRoot left right).leftLines l₀)
      (lineOffset (textRoot left right).leftLines l₁)
    = bytesBetween right (lineOffset (textRoot left right).rightLines r₀)
      (lineOffset (textRoot left right).rightLines r₁)
  picked : ∀ pick k, pickLines (textRoot left right) pick k false rest
    = bytesBetween left (lineOffset (textRoot left right).leftLines l)
        (lineOffset (textRoot left right).leftLines l₁)
      ++ ((if pick k then
          bytesBetween right (lineOffset (textRoot left right).rightLines r₁)
            (lineOffset (textRoot left right).rightLines r₂)
        else bytesBetween left (lineOffset (textRoot left right).leftLines l₁)
          (lineOffset (textRoot left right).leftLines l₂))
        ++ (bytesBetween left (lineOffset (textRoot left right).leftLines l₂)
            (lineOffset (textRoot left right).leftLines l₃)
          ++ pickLines (textRoot left right) pick (k + 1) false rest'))

/-- **What comes next** is a change, or there is none any more. -/
theorem AtTurn.next {fuel : ℕ} (h : AtTurn left right chunks fuel n l₀ r₀ l r pend rest ccs) :
    (ccs = [] ∧ ∀ c ∈ rest, c.isChange = false)
      ∨ ∃ fuel' used l₁ l₂ r₁ r₂ l₃ r₃ c pend' rest' ccs', fuel = fuel' + 1 ∧ n < chunks.length
        ∧ ccs = ⟨c, ⟨l₁, l₂⟩, ⟨r₁, r₂⟩⟩ :: ccs'
        ∧ ChangeNext left right n l₀ r₀ l l₁ l₂ r₁ r₂ l₃ used rest rest' c
        ∧ AtTurn left right chunks fuel' (n + used) l₂ r₂ l₃ r₃ pend' rest' ccs' := by
  obtain ⟨hdrop, hfuel, hpend, hpends, hstart, hs, hhunks⟩ := h
  refine (hhunks.next hs le_rfl).imp_right ?_
  rintro ⟨same, hunk, rest', ccs', l₁, r₁, l₂, r₂, hsplit, hsame, hsames, hhunk, hrest, hhead, rfl,
    hnext⟩
  have hbound := hrest.le
  obtain ⟨pend', rest'', l₃, r₃, rfl, hused, hpends', hstart', hpend', hs', hnext', hpick'⟩ :=
    behind_change hrest hhead hnext
  have hle := hhunk.stretch.le
  have hne : hunk ≠ [] := by
    rintro rfl
    obtain ⟨c, hc, -⟩ := hhunk.first
    cases hc
  have hnil : rest ≠ [] := by
    rw [hsplit]
    exact fun h => hne (List.append_eq_nil_iff.mp (List.append_eq_nil_iff.mp h).2).1
  have hlen : n < chunks.length := by
    by_contra hge
    exact hnil (hdrop ▸ List.drop_of_length_le (not_lt.mp hge))
  have hfuel' : ∃ fuel', fuel = fuel' + 1 ∧ rest''.length ≤ fuel' := by
    have hpos := List.length_pos_iff.mpr hne
    rw [hsplit, List.length_append, List.length_append, List.length_append] at hfuel
    exact ⟨fuel - 1, by omega, by omega⟩
  obtain ⟨fuel', rfl, hfuel'⟩ := hfuel'
  have hload : ∀ m, diffChunkContextLoadChange (textRoot left right) m n rest none 0
      = (some (stretchContext (textRoot left right) m (n + same.length) hunk.length l₁ r₁ l₂ r₂),
        same.length + hunk.length + pend'.length) := by
    intro m
    rw [hsplit, loadChange_eq hsames hhunk hhead, ← hused]
  have hdrop' : chunks.drop (n + (same.length + hunk.length + pend'.length)) = rest'' := by
    rw [← List.drop_drop, hdrop, hsplit, ← List.append_assoc, ← List.append_assoc]
    exact List.drop_left' (by rw [List.length_append, List.length_append])
  have hnext'' : Hunks (textRoot left right) 0 (n + (same.length + hunk.length + pend'.length)) l₃
      r₃ rest'' ccs' := by
    rwa [← Nat.add_assoc, ← Nat.add_assoc]
  have hcommon := same_bytes (Stretch.append_iff.mpr ⟨l, r, hpend, hsame⟩) fun c hc =>
    (List.mem_append.mp hc).elim (hpends c) (hsames c)
  have hahead : l₀ ≤ l₁ - 1 ∧ r₀ ≤ r₁ - 1 := by
    have hsame' := hsame.le
    rcases hstart hnil with hne | ⟨rfl, rfl⟩
    · have hlt := hpend.lt_of_same hne hpends
      omega
    · exact ⟨Nat.zero_le _, Nat.zero_le _⟩
  refine ⟨fuel', _, l₁, l₂, r₁, r₂, l₃, r₃, ⟨n + same.length, n + same.length + hunk.length⟩,
    pend', rest'', ccs', rfl, hlen, ?_, ⟨?_, ?_,
    ⟨hpend.le.1, hsame.le.1, hahead.1, hle.1⟩, ⟨hahead.2, hle.2.1⟩, hcommon, ?_⟩, hdrop', hfuel',
    hpend', hpends', fun h => Or.inl (hstart' h), hs', hnext''⟩
  · rw [stretchContext_zero hbound.1 hbound.2.1]
  · rw [hload, stretchContext_zero hbound.1 hbound.2.1]
  · rw [hload]
  · intro pick k
    have hflag : (false || !hunk.isEmpty) = true := by
      rw [List.isEmpty_eq_false_iff.mpr hne]
      rfl
    rw [hsplit, pickLines_sames hsame hsames, pickLines_change hhunk.stretch (hhunk.changes rfl),
      hflag, hpick', leftLines_flatten, rightLines_flatten]

/-- **What is picked of a change**, with what leads up to it from where the loop is. -/
theorem ChangeNext.picked_lead {l₁ l₂ r₁ r₂ l₃ used : ℕ} {rest' : List DiffChunk} {c : DiffRange}
    (h : ChangeNext left right n l₀ r₀ l l₁ l₂ r₁ r₂ l₃ used rest rest' c) (pick : ℕ → Bool)
    (k : ℕ) : bytesBetween left (lineOffset (textRoot left right).leftLines l₀)
          (lineOffset (textRoot left right).leftLines l)
        ++ pickLines (textRoot left right) pick k false rest
      = (if pick k then
            bytesBetween right (lineOffset (textRoot left right).rightLines r₀)
              (lineOffset (textRoot left right).rightLines r₂)
          else bytesBetween left (lineOffset (textRoot left right).leftLines l₀)
            (lineOffset (textRoot left right).leftLines l₂))
        ++ (bytesBetween left (lineOffset (textRoot left right).leftLines l₂)
            (lineOffset (textRoot left right).leftLines l₃)
          ++ pickLines (textRoot left right) pick (k + 1) false rest') := by
  obtain ⟨hl, hl₁, -, hl₂⟩ := h.left_le
  obtain ⟨hr, hr₂⟩ := h.right_le
  rw [h.picked, ← List.append_assoc,
    bytesBetween_append left (lineOffset_mono _ hl) (lineOffset_mono _ hl₁), ← List.append_assoc]
  split
  · rw [h.common, bytesBetween_append right (lineOffset_mono _ (hr.trans (Nat.sub_le r₁ 1)))
      (lineOffset_mono _ hr₂)]
  · rw [bytesBetween_append left (lineOffset_mono _ (hl.trans hl₁)) (lineOffset_mono _ hl₂)]

/-- **The changes that are decided**: those before the first quit. -/
def decidedChanges (patchCb : ℕ → PatchChoice) : ℕ → List DiffChunkContext → List DiffChunkContext
  | _, [] => []
  | i, cc :: ccs => if patchCb i = .quit then [] else cc :: decidedChanges patchCb (i + 1) ccs

/-- What comes of a change that is answered with yes or with no. -/
def PatchResult.answer (result : PatchResult) (l₁ l₂ r₁ r₂ : ℕ) (yes : Bool) : PatchResult :=
  if yes then ⟨copyChange result.st l₁ l₂ r₁ r₂, true, result.haveRejectedContent⟩
  else ⟨(copyChange result.st.swap l₁ l₂ r₁ r₂).swap, result.haveContent, true⟩

/-- **A turn of the loop** with yes or no. -/
theorem ChangeNext.loop {l₁ l₂ r₁ r₂ l₃ used : ℕ} {rest' : List DiffChunk} {c : DiffRange}
    {yes : Bool} {fuel : ℕ} (h : ChangeNext left right n l₀ r₀ l l₁ l₂ r₁ r₂ l₃ used rest rest' c)
    (hdrop : chunks.drop n = rest) (hlen : n < chunks.length)
    (hanswer : patchCb (i + 1) = if yes then .yes else .no) :
    patchLoop (textRoot left right) chunks patchCb (fuel + 1) n i result
      = patchLoop (textRoot left right) chunks patchCb fuel (n + used) (i + 1)
        (result.answer l₁ l₂ r₁ r₂ yes) := by
  rw [patchLoop, if_pos hlen]
  dsimp only
  unfold applyOrRejectChange
  rw [hdrop, h.load, h.used, hanswer]
  cases yes <;> simp [PatchResult.answer, ok_bind]

/-- With a quit nothing is copied any more. -/
theorem patchLoop_quit {fuel : ℕ} (hanswer : patchCb (i + 1) = .quit) (hlen : n < chunks.length) :
    patchLoop (textRoot left right) chunks patchCb (fuel + 1) n i result
      = .ok ⟨result.st, result.haveContent, true⟩ := by
  rw [patchLoop, if_pos hlen]
  dsimp only
  unfold applyOrRejectChange
  rw [hanswer, ok_bind]
  simp [pure, Except.pure]

/-- **A change has been answered**, with what leads up to it. -/
theorem DealtWith.answer {l₁ l₂ r₁ r₂ l₃ used : ℕ} {rest' : List DiffChunk} {c : DiffRange}
    (hst : DealtWith left right result.st l₀ r₀ o j out rej)
    (h : ChangeNext left right n l₀ r₀ l l₁ l₂ r₁ r₂ l₃ used rest rest' c)
    (hstep : InStep left right ⟨c, ⟨l₁, l₂⟩, ⟨r₁, r₂⟩⟩) (yes : Bool) :
    DealtWith left right (result.answer l₁ l₂ r₁ r₂ yes).st l₂ r₂ o j
      (out ++ if yes then bytesBetween right (lineOffset (textRoot left right).rightLines r₀)
          (lineOffset (textRoot left right).rightLines r₂)
        else bytesBetween left (lineOffset (textRoot left right).leftLines l₀)
          (lineOffset (textRoot left right).leftLines l₂))
      (rej ++ if yes then bytesBetween left (lineOffset (textRoot left right).leftLines l₀)
          (lineOffset (textRoot left right).leftLines l₂)
        else bytesBetween right (lineOffset (textRoot left right).rightLines r₀)
          (lineOffset (textRoot left right).rightLines r₂)) := by
  obtain ⟨-, -, hl, hl'⟩ := h.left_le
  obtain ⟨hr, hr'⟩ := h.right_le
  cases yes with
  | true => exact hst.change hstep hl hl' hr hr' h.common
  | false => exact (hst.swap.change hstep hl hl' hr hr' h.common).swap

/-- Before the first quit, what is chosen is what is answered with yes. -/
theorem chosen_succ (hquit : ∀ m, 0 < m → m ≤ i → patchCb m ≠ .quit) :
    chosen patchCb (i + 1) = decide (patchCb (i + 1) = .yes) := by
  refine decide_eq_decide.mpr ⟨fun h => h.1, fun h => ⟨h, fun m hm => ?_⟩⟩
  exact (Nat.eq_zero_or_pos m).imp id fun hpos => hquit m hpos (Nat.le_of_lt_succ hm)

/-- From a quit on, nothing is chosen. -/
theorem not_chosen_of_quit (hanswer : patchCb (i + 1) = .quit) {m : ℕ} (hm : i + 1 ≤ m) :
    chosen patchCb m = false := by
  refine decide_eq_false fun h => ?_
  rcases Nat.lt_or_eq_of_le hm with hm | rfl
  · exact (h.2 (i + 1) hm).elim (Nat.succ_ne_zero i) fun hne => hne hanswer
  · rw [hanswer] at h
    exact absurd h.1 (by decide)

theorem quit_later (hquit : ∀ m, 0 < m → m ≤ i → patchCb m ≠ .quit) (hne : patchCb (i + 1) ≠ .quit)
    (m : ℕ) (hpos : 0 < m) (hm : m ≤ i + 1) : patchCb m ≠ .quit := by
  rcases Nat.lt_or_eq_of_le hm with hm | rfl
  · exact hquit m hpos (Nat.le_of_lt_succ hm)
  · exact hne

/-- An answer that is neither none nor quit is yes or no. -/
theorem exists_yes {choice : PatchChoice} (hnone : choice ≠ .none) (hquit : choice ≠ .quit) :
    ∃ yes : Bool, choice = if yes then .yes else .no := by
  cases choice with
  | none => exact absurd rfl hnone
  | yes => exact ⟨true, rfl⟩
  | no => exact ⟨false, rfl⟩
  | quit => exact absurd rfl hquit

/-- **The loop over the changes** picks for each of them the side that was chosen, if those that
are decided are in step. -/
theorem patchLoop_spec (hnone : ∀ m, patchCb m ≠ .none) {fuel : ℕ}
    (hturn : AtTurn left right chunks fuel n l₀ r₀ l r pend rest ccs)
    (hstep : ∀ cc ∈ decidedChanges patchCb (i + 1) ccs, InStep left right cc)
    (hst : DealtWith left right result.st l₀ r₀ o j out rej)
    (hquit : ∀ m, 0 < m → m ≤ i → patchCb m ≠ .quit) :
    ∃ result', patchLoop (textRoot left right) chunks patchCb fuel n i result = .ok result'
      ∧ Picked left right patchCb result result' o j out rej
        (bytesBetween left (lineOffset (textRoot left right).leftLines l₀)
          (lineOffset (textRoot left right).leftLines l)) i rest := by
  induction fuel generalizing n i l₀ r₀ l r pend rest ccs result out rej with
  | zero =>
    have hnil : rest = [] := List.eq_nil_of_length_eq_zero (Nat.le_zero.mp hturn.fuel)
    refine ⟨result, rfl, hst.picked_tail hturn.passed hturn.same hturn.stretch ?_ id id⟩
    rw [hnil]
    exact fun c hc => absurd hc List.not_mem_nil
  | succ fuel ih =>
    rcases hturn.next with ⟨-, hsames⟩ | ⟨fuel', used, l₁, l₂, r₁, r₂, l₃, r₃, c, pend', rest',
      ccs', hfuel, hlen, rfl, hchange, hturn'⟩
    · -- no change is left, whatever the answer is
      by_cases hlen : n < chunks.length
      · obtain ⟨st', happly, hst'⟩ := hst.apply_none hturn.drop hsames (hnone (i + 1))
        rw [patchLoop, if_pos hlen]
        dsimp only
        rw [happly]
        have hend : ¬n + rest.length < chunks.length := by
          rw [← hturn.drop, List.length_drop]
          omega
        have hcontent : (decide (result.haveContent = true ∨ patchCb (i + 1) = .yes)) = false →
            result.haveContent = false := fun h =>
          Bool.eq_false_iff.mpr fun htrue => of_decide_eq_false h (Or.inl htrue)
        have hrejected : (decide (result.haveRejectedContent = true ∨ patchCb (i + 1) ≠ .yes))
          = false →
            result.haveRejectedContent = false := fun h =>
          Bool.eq_false_iff.mpr fun htrue => of_decide_eq_false h (Or.inl htrue)
        refine ⟨⟨st', decide (result.haveContent = true ∨ patchCb (i + 1) = .yes),
          decide (result.haveRejectedContent = true ∨ patchCb (i + 1) ≠ .yes)⟩, ?_,
          hst'.picked_tail hturn.passed hturn.same hturn.stretch hsames hcontent hrejected⟩
        show (if patchCb (i + 1) = .quit then _ else patchLoop _ _ _ fuel _ _ _) = _
        split
        · rfl
        · exact patchLoop_end hend _ _ _
      · exact ⟨result, patchLoop_end hlen _ _ _,
          hst.picked_tail hturn.passed hturn.same hturn.stretch hsames id id⟩
    · obtain rfl : fuel = fuel' := Nat.succ.inj hfuel
      by_cases hanswer : patchCb (i + 1) = .quit
      · exact ⟨_, patchLoop_quit hanswer hlen, DealtWith.picked_quit hst hturn.passed hturn.same
          hturn.stretch (fun m => not_chosen_of_quit hanswer) id rfl⟩
      · obtain ⟨yes, hyes⟩ := exists_yes (hnone (i + 1)) hanswer
        rw [decidedChanges, if_neg hanswer] at hstep
        obtain ⟨hcc, hstep'⟩ := List.forall_mem_cons.mp hstep
        have hchosen : chosen patchCb (i + 1) = yes := by
          rw [chosen_succ hquit, hyes]
          cases yes <;> rfl
        obtain ⟨result', hloop, hpicked⟩ := ih hturn' hstep' (hst.answer hchange hcc yes)
          (quit_later hquit hanswer)
        refine ⟨result', (hchange.loop hturn.drop hlen hyes).trans hloop,
          hpicked.cons (by rw [hchosen]) (by rw [hchosen])
            (fun pick => hchange.picked_lead pick (i + 1)) ?_ ?_ ?_⟩
        · intro pick pick' hpick hrest'
          rw [hchange.picked, hchange.picked, hpick, hrest']
        · intro h
          cases yes with
          | true => cases h
          | false => exact ⟨h, hchosen⟩
        · intro h
          cases yes with
          | true => exact ⟨h, hchosen⟩
          | false => cases h

/-- The file on the left with the changes that were chosen. -/
def acceptedLines (left right : Bytes) (chunks : List DiffChunk) (patchCb : ℕ → PatchChoice) :
    Bytes :=
  pickLines (textRoot left right) (chosen patchCb) 1 false chunks

/-- The file on the right without the changes that were chosen. -/
def rejectedLines (left right : Bytes) (chunks : List DiffChunk) (patchCb : ℕ → PatchChoice) :
    Bytes :=
  pickLines (textRoot left right) (fun m => !chosen patchCb m) 1 false chunks

/-- **The changes are split exactly**, whatever the answers are: what is written is the file on
the left with the changes that were chosen, and the file on the right without them. If there is
no file, nothing has been chosen; and nothing is left to be staged if everything has. -/
structure SplitsExactly (left right : Bytes) (chunks : List DiffChunk)
    (patchCb : ℕ → PatchChoice) : Prop where
  both : ∃ result, patchChanges left right chunks patchCb (some []) (some []) = .ok result
    ∧ copyRemainingContent result.st = (some (acceptedLines left right chunks patchCb),
      some (rejectedLines left right chunks patchCb))
  forward : ∃ content, createPatchedContent false left right chunks patchCb = .ok content
    ∧ content.getD left = acceptedLines left right chunks patchCb
  reverse : ∃ content, createPatchedContent true left right chunks patchCb = .ok content
    ∧ content.getD right = rejectedLines left right chunks patchCb
  unstaged : ∃ content staged, createUnstagedContent left right chunks patchCb
      = .ok (content, staged) ∧ content.getD left = acceptedLines left right chunks patchCb
    ∧ (if content = none then staged = none ∧ rejectedLines left right chunks patchCb = right
      else staged.getD left = rejectedLines left right chunks patchCb)

/-- What the loop starts with. -/
def patchStart (left right : Bytes) (o j : OutFile) : PatchResult :=
  ⟨⟨InFile.open_ left, InFile.open_ right, 1, 1, o, j⟩, false, false⟩

/-- The first turn begins at the start of both files. -/
theorem atTurn_start (h : SoundScript (textRoot left right) chunks
    (textRoot left right).left.length (textRoot left right).right.length) :
    AtTurn left right chunks chunks.length 0 0 0 0 0 [] chunks
      (diffChunkContexts (textRoot left right) 0 0 chunks none) :=
  ⟨rfl, le_rfl, Stretch.nil_iff.mpr ⟨rfl, rfl⟩, fun _ hc => absurd hc List.not_mem_nil,
    fun _ => Or.inr ⟨rfl, rfl⟩, h.stretch, diffChunkContexts_hunks h.stretch⟩

/-- Before the first turn nothing was dealt with. -/
theorem dealtWith_start (left right : Bytes) (o j : OutFile) :
    DealtWith left right (patchStart left right o j).st 0 0 o j [] [] := by
  have hreads : ∀ data, ReadsAt (InFile.open_ data) 1 (textLines data) 0 :=
    fun data => ⟨rfl, fun _ => ⟨rfl, rfl⟩⟩
  have hresumes : Resumes left right 0 0 [] [] := ⟨rfl, rfl⟩
  exact ⟨hreads left, hreads right, ⟨[], hresumes, (OutFile.write_nil o).symm⟩, [], hresumes,
    (OutFile.write_nil j).symm⟩

/-- What the loop comes to from the start, whichever files are written. -/
theorem patchChanges_spec (h : SoundScript (textRoot left right) chunks
      (textRoot left right).left.length (textRoot left right).right.length)
    (hstep : ∀ cc ∈ decidedChanges patchCb 1
      (diffChunkContexts (textRoot left right) 0 0 chunks none), InStep left right cc)
    (hnone : ∀ m, patchCb m ≠ .none) (o j : OutFile) :
    ∃ result, patchChanges left right chunks patchCb o j = .ok result
      ∧ copyRemainingContent result.st = (o.write (acceptedLines left right chunks patchCb),
        j.write (rejectedLines left right chunks patchCb))
      ∧ (result.haveContent = false → acceptedLines left right chunks patchCb = left
        ∧ rejectedLines left right chunks patchCb = right)
      ∧ (result.haveRejectedContent = false → rejectedLines left right chunks patchCb = left) := by
  obtain ⟨result, hloop, hpicked⟩ := patchLoop_spec hnone (atTurn_start h) hstep
    (dealtWith_start left right o j) fun m hpos hle => absurd hpos (not_lt.mpr hle)
  have hlead : bytesBetween left (lineOffset (textRoot left right).leftLines 0)
      (lineOffset (textRoot left right).leftLines 0) = [] := by
    rw [bytesBetween, Nat.sub_self, List.take_zero]
  have hcontent := hpicked.content
  rw [hlead, List.nil_append, List.nil_append] at hcontent
  have hleft := @pickLines_left 1 0 0 _ _ (textRoot left right)
    (fun _ => false) chunks false h.stretch
    fun _ _ => rfl
  have hright := @pickLines_right 1 0 0 _ _ (textRoot left right) (fun _ => true) chunks false rfl
    h.stretch fun _ _ => rfl
  rw [leftLines_flatten, lineOffset_leftLines, bytesBetween_length] at hleft
  rw [rightLines_flatten, lineOffset_rightLines, bytesBetween_length] at hright
  exact ⟨result, hloop, hcontent,
    fun h => ⟨((hpicked.noneChosen h).2 id).trans hleft,
      ((hpicked.noneChosen h).2 not).trans hright⟩,
    fun h => ((hpicked.allChosen h).2 not).trans hleft⟩

/-- **Changes are split exactly** if the line numbers of those that are decided are in step. -/
theorem SplitsExactly.of_inStep (h : SoundScript (textRoot left right) chunks
      (textRoot left right).left.length (textRoot left right).right.length)
    (hstep : ∀ cc ∈ decidedChanges patchCb 1
      (diffChunkContexts (textRoot left right) 0 0 chunks none), InStep left right cc)
    (hnone : ∀ m, patchCb m ≠ .none) : SplitsExactly left right chunks patchCb := by
  have hspec := patchChanges_spec h hstep hnone
  refine ⟨?_, ?_, ?_, ?_⟩
  · obtain ⟨result, hresult, hcontent, -⟩ := hspec (some []) (some [])
    exact ⟨result, hresult, hcontent⟩
  · obtain ⟨result, hresult, hcontent, hempty, -⟩ := hspec (some []) none
    have hpatched : createPatchedContent false left right chunks patchCb
        = .ok (if result.haveContent then (copyRemainingContent result.st).1 else none) := by
      unfold createPatchedContent
      simp only [Bool.false_eq_true, if_false, hresult, ok_bind]
      split <;> rfl
    refine ⟨_, hpatched, ?_⟩
    split
    · rw [hcontent]
      rfl
    · next hno => exact (hempty (Bool.eq_false_iff.mpr hno)).1.symm
  · obtain ⟨result, hresult, hcontent, hempty, -⟩ := hspec none (some [])
    have hpatched : createPatchedContent true left right chunks patchCb
        = .ok (if result.haveContent then (copyRemainingContent result.st).2 else none) := by
      unfold createPatchedContent
      simp only [if_true, hresult, ok_bind]
      split <;> rfl
    refine ⟨_, hpatched, ?_⟩
    split
    · rw [hcontent]
      rfl
    · next hno => exact (hempty (Bool.eq_false_iff.mpr hno)).2.symm
  · obtain ⟨result, hresult, hcontent, hempty, hall⟩ := hspec (some []) (some [])
    have hunstaged : createUnstagedContent left right chunks patchCb
        = .ok (if result.haveContent then some (acceptedLines left right chunks patchCb) else none,
          if result.haveContent ∧ result.haveRejectedContent then
            some (rejectedLines left right chunks patchCb) else none) := by
      unfold createUnstagedContent
      rw [hresult, ok_bind]
      dsimp only
      cases hhave : result.haveContent with
      | false => rfl
      | true =>
        simp only [true_or, if_true, hcontent]
        rfl
    refine ⟨_, _, hunstaged, ?_⟩
    cases hhave : result.haveContent with
    | false => exact ⟨(hempty hhave).1.symm, rfl, (hempty hhave).2⟩
    | true =>
      refine ⟨rfl, ?_⟩
      cases hrej : result.haveRejectedContent with
      | false => exact (hall hrej).symm
      | true => rfl

/-! ## Changes that are not in step -/

/-- **No more changes are decided** with these answers than with others: there is a quit wherever
there is one, or before. -/
def AsksNoMore (answers patchCb : ℕ → PatchChoice) : Prop :=
  ∀ m, 0 < m → patchCb m = .quit → ∃ k, 0 < k ∧ k ≤ m ∧ answers k = .quit

/-- The answers up to a change, with another one for it, and a quit behind it. -/
def thenQuit (patchCb : ℕ → PatchChoice) (i : ℕ) (yes : Bool) (m : ℕ) : PatchChoice :=
  if m ≤ i then patchCb m else if m = i + 1 then (if yes then .yes else .no) else .quit

/-- These are answers, if the others are. -/
theorem thenQuit_ne_none (hnone : ∀ m, patchCb m ≠ .none) (i : ℕ) (yes : Bool) (m : ℕ) :
    thenQuit patchCb i yes m ≠ .none := by
  rw [thenQuit]
  split
  · exact hnone m
  · split
    · cases yes <;> decide
    · decide

/-- These answers decide no more changes than the others do, which go on beyond the change. -/
theorem thenQuit_asksNoMore (hquit : ∀ m, 0 < m → m ≤ i → patchCb m ≠ .quit)
    (hne : patchCb (i + 1) ≠ .quit) (yes : Bool) : AsksNoMore (thenQuit patchCb i yes) patchCb := by
  intro m hpos hm
  have hlate : i + 1 < m := by
    by_contra hle
    exact quit_later hquit hne m hpos (not_lt.mp hle) hm
  refine ⟨i + 2, Nat.succ_pos _, hlate, ?_⟩
  rw [thenQuit, if_neg (by omega), if_neg (by omega)]

theorem thenQuit_self (patchCb : ℕ → PatchChoice) (i : ℕ) (yes : Bool) :
    thenQuit patchCb i yes (i + 1) = if yes then .yes else .no := by
  rw [thenQuit, if_neg (by omega), if_pos rfl]

theorem thenQuit_next (patchCb : ℕ → PatchChoice) (i : ℕ) (yes : Bool) :
    thenQuit patchCb i yes (i + 1 + 1) = .quit := by
  rw [thenQuit, if_neg (by omega), if_neg (by omega)]

/-- The outcome of one more answer before a quit: behind the change, the old file is copied. -/
theorem ChangeNext.then_quit {l₁ l₂ r₁ r₂ l₃ used fuel : ℕ} {rest' : List DiffChunk} {c : DiffRange}
    {ccs' : List DiffChunkContext} {r₃ : ℕ} {pend' : List DiffChunk} {yes : Bool}
    (h : ChangeNext left right n l₀ r₀ l l₁ l₂ r₁ r₂ l₃ used rest rest' c)
    (hdrop : chunks.drop n = rest) (hlen : n < chunks.length)
    (hturn : AtTurn left right chunks fuel (n + used) l₂ r₂ l₃ r₃ pend' rest' ccs')
    (hquit : ∀ m, 0 < m → m ≤ i → patchCb m ≠ .quit)
    (hexact : ∃ result', patchLoop (textRoot left right) chunks (thenQuit patchCb i yes) (fuel + 1)
        n i result = .ok result'
      ∧ (copyRemainingContent result'.st).1
        = some (out ++ (bytesBetween left (lineOffset (textRoot left right).leftLines l₀)
            (lineOffset (textRoot left right).leftLines l)
          ++ pickLines (textRoot left right) (chosen (thenQuit patchCb i yes)) (i + 1) false
            rest))) :
    (copyRemainingContent (result.answer l₁ l₂ r₁ r₂ yes).st).1
      = some (out ++ ((if yes then
            bytesBetween right (lineOffset (textRoot left right).rightLines r₀)
              (lineOffset (textRoot left right).rightLines r₂)
          else bytesBetween left (lineOffset (textRoot left right).leftLines l₀)
            (lineOffset (textRoot left right).leftLines l₂))
        ++ left.drop (lineOffset (textRoot left right).leftLines l₂))) := by
  obtain ⟨result', hloop, hcontent⟩ := hexact
  have hst : result'.st = (result.answer l₁ l₂ r₁ r₂ yes).st := by
    rw [h.loop hdrop hlen (thenQuit_self patchCb i yes)] at hloop
    by_cases hlen' : n + used < chunks.length
    · cases fuel with
      | zero => rw [← Except.ok.inj hloop]
      | succ fuel =>
        rw [patchLoop_quit (thenQuit_next patchCb i yes) hlen'] at hloop
        rw [← Except.ok.inj hloop]
    · rw [patchLoop_end hlen'] at hloop
      rw [← Except.ok.inj hloop]
  have hchosen : chosen (thenQuit patchCb i yes) (i + 1) = yes := by
    have hbefore : ∀ m, 0 < m → m ≤ i → thenQuit patchCb i yes m ≠ .quit := by
      intro m hpos hm
      rw [thenQuit, if_pos hm]
      exact hquit m hpos hm
    rw [chosen_succ hbefore, thenQuit_self]
    cases yes <;> rfl
  have hrest := @pickLines_left (i + 1 + 1) l₃ r₃ _ _ (textRoot left right)
    (chosen (thenQuit patchCb i yes)) rest' false hturn.stretch
    fun m hm => not_chosen_of_quit (thenQuit_next patchCb i yes) hm
  rw [leftLines_flatten, lineOffset_leftLines, bytesBetween_length] at hrest
  rw [← hst, hcontent, h.picked_lead, hrest, hchosen,
    bytesBetween_drop left (lineOffset_mono _ hturn.passed.le.1)]

/-- **A change is in step** if what is written is right both when it is answered with no and when
it is answered with yes. -/
theorem DealtWith.inStep {l₁ l₂ r₁ r₂ l₃ used : ℕ} {rest' : List DiffChunk} {c : DiffRange}
    (hst : DealtWith left right result.st l₀ r₀ (some []) j out rej)
    (h : ChangeNext left right n l₀ r₀ l l₁ l₂ r₁ r₂ l₃ used rest rest' c)
    (hexact : ∀ yes, (copyRemainingContent (result.answer l₁ l₂ r₁ r₂ yes).st).1
      = some (out ++ ((if yes then
            bytesBetween right (lineOffset (textRoot left right).rightLines r₀)
              (lineOffset (textRoot left right).rightLines r₂)
          else bytesBetween left (lineOffset (textRoot left right).leftLines l₀)
            (lineOffset (textRoot left right).leftLines l₂))
        ++ left.drop (lineOffset (textRoot left right).leftLines l₂)))) :
    InStep left right ⟨c, ⟨l₁, l₂⟩, ⟨r₁, r₂⟩⟩ := by
  obtain ⟨hl₀, hl, hl₁, hl₂⟩ := h.left_le
  obtain ⟨hr, hr₂⟩ := h.right_le
  have hl₁' : l₀ ≤ l₁ := hl₁.trans (Nat.sub_le l₁ 1)
  have hr₁' : r₀ ≤ r₁ := hr.trans (Nat.sub_le r₁ 1)
  have hlines : l₁ - 1 ≤ l₂ := (Nat.sub_le l₁ 1).trans hl₂
  have hlines' : r₁ - 1 ≤ r₂ := (Nat.sub_le r₁ 1).trans hr₂
  obtain ⟨w, hw, houtfile⟩ := hst.outfile
  have hcopied : ∀ {st' : PatchState} {data : Bytes},
      ReadsAt st'.f1 st'.lineCur1 (textLines left) l₂ → st'.outfile = some data →
      (copyRemainingContent st').1
        = some (data ++ left.drop (lineOffset (textLines left) l₂)) := by
    intro st' data hreads hdata
    rw [copyRemainingContent, copyToEofLoop_spec _ hreads (Nat.lt_succ_self _), hdata,
      ← drop_lineOffset, flatten_textLines]
    rfl
  have hstart : SwitchAlike left right (lineOffset (textLines left) (l₁ - 1))
      (lineOffset (textLines right) (r₁ - 1)) (lineOffset (textRoot left right).leftLines l₁)
      (lineOffset (textRoot left right).rightLines r₁) := by
    -- with no, the lines leading up to the change are of the new file, all else of the old one
    obtain ⟨hf1, -, -, hrej⟩ := copyChange_spec hst.swap.f1 hst.swap.f2 hl₁ hl₂ hr hr₂
    have hwritten : (result.answer l₁ l₂ r₁ r₂ false).st.outfile = _ := hrej
    rw [show result.st.swap.rejectfile = some w from houtfile] at hwritten
    have hno := (@hcopied (result.answer l₁ l₂ r₁ r₂ false).st (w ++ _) hf1 hwritten).symm.trans
      (hexact false)
    rw [Option.some.injEq, if_neg Bool.false_ne_true, bytesBetween_drop left
      (lineOffset_mono _ (hl₁'.trans hl₂)), ← bytesBetween_drop left (lineOffset_mono _ hl₁'),
      h.common, ← List.append_assoc, ← List.append_assoc, List.append_assoc (w ++ _),
      bytesBetween_drop left (lineOffset_mono _ hlines)] at hno
    exact ((switchAlike_iff (lineOffset_textLines_le _ _) (lineOffset_rightLines_le _ _ _)
      (lineOffset_textLines_le _ _) (lineOffset_leftLines_le _ _ _)
      (goOn hw.f2 (lineOffset_mono _ hr) (lineOffset_mono _ hr₁'))).mpr hno).swap
  refine ⟨hstart, ?_⟩
  -- with yes, the old file is gone on with behind the lines of the new one
  obtain ⟨hf1, -, hout, -⟩ := copyChange_spec hst.f1 hst.f2 hl₁ hl₂ hr hr₂
  have hwritten : (result.answer l₁ l₂ r₁ r₂ true).st.outfile = _ := hout
  rw [show result.st.outfile = some w from houtfile] at hwritten
  have hyes := (@hcopied (result.answer l₁ l₂ r₁ r₂ true).st (w ++ _) hf1 hwritten).symm.trans
    (hexact true)
  rw [Option.some.injEq, if_pos rfl, ← bytesBetween_append right (lineOffset_mono _ hr₁')
    (lineOffset_mono _ hr₂), ← h.common, ← List.append_assoc out] at hyes
  have hright := goOn_switch hw.f1 (lineOffset_mono _ hl₁) (lineOffset_mono _ hl₁') hstart
    (lineOffset_textLines_le _ _) (lineOffset_leftLines_le _ _ _) (lineOffset_textLines_le _ _)
    (lineOffset_rightLines_le _ _ _) (lineOffset_mono _ hlines') (lineOffset_mono _ hr₂)
  exact ((switchAlike_iff (lineOffset_textLines_le _ _) (lineOffset_rightLines_le _ _ _)
    (lineOffset_textLines_le _ _) (lineOffset_leftLines_le _ _ _) hright).mpr hyes).swap

/-- **The changes that are decided are in step**, if all answers for them come out right. -/
theorem inStep_of_exact (hnone : ∀ m, patchCb m ≠ .none) {fuel : ℕ}
    (hturn : AtTurn left right chunks fuel n l₀ r₀ l r pend rest ccs)
    (hst : DealtWith left right result.st l₀ r₀ (some []) j out rej)
    (hquit : ∀ m, 0 < m → m ≤ i → patchCb m ≠ .quit)
    (hexact : ∀ answers, (∀ m, answers m ≠ .none) → (∀ m ≤ i, answers m = patchCb m) →
      AsksNoMore answers patchCb →
      ∃ result', patchLoop (textRoot left right) chunks answers fuel n i result = .ok result'
        ∧ (copyRemainingContent result'.st).1
          = some (out ++ (bytesBetween left (lineOffset (textRoot left right).leftLines l₀)
              (lineOffset (textRoot left right).leftLines l)
            ++ pickLines (textRoot left right) (chosen answers) (i + 1) false rest))) :
    ∀ cc ∈ decidedChanges patchCb (i + 1) ccs, InStep left right cc := by
  induction fuel generalizing n i l₀ r₀ l r pend rest ccs result out rej with
  | zero =>
    rcases hturn.next with ⟨rfl, -⟩ | ⟨fuel', -, -, -, -, -, -, -, -, -, -, -, hfuel, -⟩
    · exact fun cc hcc => absurd hcc List.not_mem_nil
    · exact absurd hfuel (Nat.succ_ne_zero fuel').symm
  | succ fuel ih =>
    rcases hturn.next with ⟨rfl, -⟩ | ⟨fuel', used, l₁, l₂, r₁, r₂, l₃, r₃, c, pend', rest', ccs',
      hfuel, hlen, rfl, hchange, hturn'⟩
    · exact fun cc hcc => absurd hcc List.not_mem_nil
    obtain rfl : fuel = fuel' := Nat.succ.inj hfuel
    by_cases hanswer : patchCb (i + 1) = .quit
    · rw [decidedChanges, if_pos hanswer]
      exact fun cc hcc => absurd hcc List.not_mem_nil
    have hcc : InStep left right ⟨c, ⟨l₁, l₂⟩, ⟨r₁, r₂⟩⟩ := by
      refine hst.inStep hchange fun yes => hchange.then_quit hturn.drop hlen hturn' hquit ?_
      exact hexact _ (thenQuit_ne_none hnone i yes) (fun m hm => if_pos hm)
        (thenQuit_asksNoMore hquit hanswer yes)
    rw [decidedChanges, if_neg hanswer, List.forall_mem_cons]
    refine ⟨hcc, ?_⟩
    obtain ⟨yes, hyes⟩ := exists_yes (hnone (i + 1)) hanswer
    refine ih hturn' (hst.answer hchange hcc yes) (quit_later hquit hanswer) ?_
    intro answers hnone' hsame hasks
    have hanswers : answers (i + 1) = if yes then .yes else .no := (hsame (i + 1) le_rfl).trans hyes
    obtain ⟨result', hloop, hcontent⟩ :=
      hexact answers hnone' (fun m hm => hsame m (Nat.le_succ_of_le hm)) hasks
    have hchosen : chosen answers (i + 1) = yes := by
      have hbefore : ∀ m, 0 < m → m ≤ i → answers m ≠ .quit := fun m hpos hm =>
        (hsame m (Nat.le_succ_of_le hm)).symm ▸ hquit m hpos hm
      rw [chosen_succ hbefore, hanswers]
      cases yes <;> rfl
    refine ⟨result', (hchange.loop hturn.drop hlen hanswers).symm.trans hloop, ?_⟩
    rw [hcontent, hchange.picked_lead, hchosen, List.append_assoc]

theorem AsksNoMore.refl (patchCb : ℕ → PatchChoice) : AsksNoMore patchCb patchCb :=
  fun m hpos hm => ⟨m, hpos, le_rfl, hm⟩

/-- With answers that ask no more, only changes are decided that are decided otherwise too. -/
theorem AsksNoMore.decided_subset {answers : ℕ → PatchChoice} (h : AsksNoMore answers patchCb)
    (hquit : ∀ m, 0 < m → m ≤ i → answers m ≠ .quit) :
    decidedChanges answers (i + 1) ccs ⊆ decidedChanges patchCb (i + 1) ccs := by
  induction ccs generalizing i with
  | nil => exact List.Subset.refl _
  | cons cc ccs ih =>
    rw [decidedChanges]
    split
    · exact List.nil_subset _
    · next hanswer =>
      have hlater := quit_later hquit hanswer
      have hne : patchCb (i + 1) ≠ .quit := fun hm =>
        have ⟨k, hpos, hle, hk⟩ := h (i + 1) (Nat.succ_pos i) hm
        hlater k hpos hle hk
      rw [decidedChanges, if_neg hne]
      exact List.cons_subset_cons cc (ih hlater)

/-- **Changes are split exactly**, with these answers and with all others that decide no more
changes, if and only if the line numbers of those that are decided are in step. -/
theorem splitsExactly_iff (h : SoundScript (textRoot left right) chunks
      (textRoot left right).left.length (textRoot left right).right.length)
    (hnone : ∀ m, patchCb m ≠ .none) :
    (∀ answers, (∀ m, answers m ≠ .none) → AsksNoMore answers patchCb →
        SplitsExactly left right chunks answers)
      ↔ ∀ cc ∈ decidedChanges patchCb 1 (diffChunkContexts (textRoot left right) 0 0 chunks none),
        InStep left right cc := by
  have hstart : ∀ (answers : ℕ → PatchChoice) (m : ℕ), 0 < m → m ≤ 0 → answers m ≠ .quit :=
    fun _ m hpos hle => absurd hpos (not_lt.mpr hle)
  constructor
  · intro hsplit
    refine inStep_of_exact hnone (atTurn_start h) (dealtWith_start left right (some []) (some []))
      (hstart patchCb) fun answers hnone' _ hasks => ?_
    obtain ⟨result, hloop, hcontent⟩ := (hsplit answers hnone' hasks).both
    refine ⟨result, hloop, ?_⟩
    rw [hcontent, bytesBetween, Nat.sub_self, List.take_zero]
    rfl
  · intro hstep answers hnone' hasks
    exact .of_inStep h (fun cc hcc => hstep cc (hasks.decided_subset (hstart answers) hcc)) hnone'

end Run

instance (left right : Bytes) (cc : DiffChunkContext) : Decidable (InStep left right cc) :=
  decidable_of_iff (SwitchAlike left right (lineOffset (textLines left) (cc.left.start - 1))
      (lineOffset (textLines right) (cc.right.start - 1))
      (lineOffset (textRoot left right).leftLines cc.left.start)
      (lineOffset (textRoot left right).rightLines cc.right.start)
    ∧ SwitchAlike left right (lineOffset (textLines left) cc.left.end_)
      (lineOffset (textLines right) cc.right.end_)
      (lineOffset (textRoot left right).leftLines cc.left.end_)
      (lineOffset (textRoot left right).rightLines cc.right.end_))
    ⟨fun h => ⟨h.1, h.2⟩, fun h => ⟨h.start, h.end_⟩⟩

/-- Of two changes the first is chosen and the second is not asked for any more, behind lines that
end with a carriage return and a line feed. -/
theorem splitsExactly_iff_quit :
    SplitsExactly "x\na\r\nb\r\nc\nd\n".toUTF8.toList "y\na\r\nb\r\ne\nd\n".toUTF8.toList
      (gotDiffreg (textRoot "x\na\r\nb\r\nc\nd\n".toUTF8.toList
        "y\na\r\nb\r\ne\nd\n".toUTF8.toList)) (fun m => if m = 1 then .yes else .quit) :=
  have hnone : ∀ m, (if m = 1 then PatchChoice.yes else .quit) ≠ .none := fun m => by
    split <;> decide
  (splitsExactly_iff (diffMainPatience_sound _) hnone).mpr (by decide +kernel) _ hnone
    (AsksNoMore.refl _)

/-- Behind two lines that end with a carriage return and a line feed, a change is lost that has
been chosen. -/
theorem split_not_exact :
    createPatchedContent false "a\r\nb\r\nc\nd\n".toUTF8.toList "a\r\nb\r\nx\nd\n".toUTF8.toList
        (gotDiffreg (textRoot "a\r\nb\r\nc\nd\n".toUTF8.toList
          "a\r\nb\r\nx\nd\n".toUTF8.toList)) (fun _ => .yes)
      = .ok (some "a\r\nb\r\nc\nd\n".toUTF8.toList)
    ∧ ¬SplitsExactly "a\r\nb\r\nc\nd\n".toUTF8.toList "a\r\nb\r\nx\nd\n".toUTF8.toList
        (gotDiffreg (textRoot "a\r\nb\r\nc\nd\n".toUTF8.toList
          "a\r\nb\r\nx\nd\n".toUTF8.toList)) (fun _ => .yes) := by
  have hpatched : createPatchedContent false "a\r\nb\r\nc\nd\n".toUTF8.toList
      "a\r\nb\r\nx\nd\n".toUTF8.toList (gotDiffreg (textRoot "a\r\nb\r\nc\nd\n".toUTF8.toList
        "a\r\nb\r\nx\nd\n".toUTF8.toList)) (fun _ => .yes)
      = .ok (some "a\r\nb\r\nc\nd\n".toUTF8.toList) := by decide +kernel
  refine ⟨hpatched, fun h => ?_⟩
  obtain ⟨content, hcontent, haccepted⟩ := h.forward
  rw [hpatched] at hcontent
  rw [← Except.ok.inj hcontent] at haccepted
  revert haccepted
  decide +kernel

end Got

import Got.Diff.Atomize

/-!
# Atoms and lines

The rest of the source counts lines by their line feeds, and so a number of atoms need not be
where the same number of lines is. A carriage return ends an atom too early, and the atoms lag
behind from then on: one atom more does not make up for it, as no atom has two line feeds
(`lineOffset_atoms_lt`).

There is one exception. At the start of a line that has nothing else, a carriage return is pulled
into the atom before. This atom is too long by one byte and the next one too short, and behind
them all is well again. So the numbers are those of the lines if and only if all carriage returns
before are such ones, and there is none of them right behind, where the two atoms meet
(`samePlace_iff`).
-/

namespace Got

open Lines

variable {ws : Bool} {data line : Bytes} {fuel : ℕ}

/-- **The lines of a text**, as `getline` finds them. -/
def textLines (data : Bytes) : List Bytes := lines (· = 10) data

theorem flatten_textLines (data : Bytes) : (textLines data).flatten = data :=
  flatten_lines _ data

/-- The first line. -/
theorem textLines_cons {body : Bytes} (h : 10 ∉ body) (rest : Bytes) :
    textLines (body ++ 10 :: rest) = (body ++ [10]) :: textLines rest := by
  have hline : Terminated (fun c : UInt8 => decide (c = 10)) (body ++ [10]) := by
    refine ⟨body, 10, rfl, rfl, fun c hc => decide_eq_false ?_⟩
    rintro rfl
    exact h hc
  have hlines := lines_cons hline rest
  rwa [List.append_assoc] at hlines

/-- The last line may have no end. -/
theorem textLines_of_not_mem (h : 10 ∉ data) (hne : data ≠ []) : textLines data = [data] := by
  induction data with
  | nil => exact absurd rfl hne
  | cons c data ih =>
    have hc : ¬decide (c = 10) = true := by
      rw [decide_eq_true_iff]
      rintro rfl
      exact h List.mem_cons_self
    rw [textLines, lines, if_neg hc]
    cases data with
    | nil => rfl
    | cons d data =>
      have ih := ih (fun hmem => h (List.mem_cons_of_mem _ hmem)) (List.cons_ne_nil _ _)
      rw [textLines] at ih
      rw [ih]

/-- A line that is not the last one ends with a line feed. -/
theorem getLast?_of_textLines {lines : List Bytes} (h : textLines data = line :: lines)
    (hne : lines ≠ []) : line.getLast? = some 10 := by
  obtain ⟨body, e, rfl, he, -⟩ := terminated_of_lines h hne
  rw [List.getLast?_concat, of_decide_eq_true he]

/-- **The lines from one on** are the lines of what comes from there on. -/
theorem textLines_drop (data : Bytes) (n : ℕ) :
    textLines ((textLines data).drop n).flatten = (textLines data).drop n := by
  induction n generalizing data with
  | zero => rw [List.drop_zero, flatten_textLines]
  | succ n ih =>
    cases hlines : textLines data with
    | nil => rfl
    | cons line lines =>
      rw [List.drop_succ_cons]
      have htail : textLines lines.flatten = lines := by
        by_cases hne : lines = []
        · rw [hne]
          rfl
        · have hcons := lines_cons (terminated_of_lines hlines hne) lines.flatten
          rw [← List.flatten_cons, ← hlines, flatten_textLines] at hcons
          exact (List.cons.inj (hlines.symm.trans hcons)).2.symm
      rw [← htail]
      exact ih lines.flatten

/-! ## Where an atom ends -/

/-- **The first atom of a text**: it has no end, or it ends with one byte, or there is a
carriage return behind, with a line feed that begins the next atom. -/
theorem lineEnd_cases (data : Bytes) :
    ∃ body rest, 13 ∉ body ∧ 10 ∉ body ∧ body = data.takeWhile (fun c => c ≠ 13 ∧ c ≠ 10)
      ∧ ((data = body ∧ lineEnd data body.length = body.length)
        ∨ (∃ e, (e = 13 ∨ e = 10) ∧ data = body ++ e :: rest ∧ ¬[13, 10] <+: rest
          ∧ lineEnd data body.length = body.length + 1)
        ∨ ∃ e, (e = 13 ∨ e = 10) ∧ data = body ++ e :: 13 :: 10 :: rest
          ∧ lineEnd data body.length = body.length + 2) := by
  have hin : ∀ c ∈ data.takeWhile (fun c => c ≠ 13 ∧ c ≠ 10), c ≠ 13 ∧ c ≠ 10 :=
    fun c hc =>
      of_decide_eq_true (@List.mem_takeWhile_imp _
        (fun c : UInt8 => decide (c ≠ 13 ∧ c ≠ 10)) _ _ hc)
  have hsplit := @List.takeWhile_append_dropWhile _ (fun c : UInt8 => decide (c ≠ 13 ∧ c ≠ 10)) data
  have hend := List.head?_dropWhile_not (fun c : UInt8 => decide (c ≠ 13 ∧ c ≠ 10)) data
  generalize data.takeWhile (fun c => c ≠ 13 ∧ c ≠ 10) = body at hin hsplit ⊢
  generalize data.dropWhile (fun c => c ≠ 13 ∧ c ≠ 10) = tail at hsplit hend
  have h13 : 13 ∉ body := fun h => (hin 13 h).1 rfl
  have h10 : 10 ∉ body := fun h => (hin 10 h).2 rfl
  have hget : ∀ i, data[body.length + i]? = tail[i]? := by
    intro i
    rw [← hsplit, List.getElem?_append_right (Nat.le_add_right _ _), Nat.add_sub_cancel_left]
  have hlen : data.length = body.length + tail.length := by
    rw [← hsplit, List.length_append]
  cases tail with
  | nil =>
    refine ⟨body, [], h13, h10, rfl, Or.inl ⟨?_, ?_⟩⟩
    · rw [← hsplit, List.append_nil]
    · rw [List.length_nil] at hlen
      unfold lineEnd
      dsimp only
      rw [if_neg (show ¬body.length < data.length by omega), if_neg (by omega)]
  | cons e tail =>
    have he : e = 13 ∨ e = 10 := by
      rw [List.head?_cons] at hend
      have hnot := of_decide_eq_false hend
      by_contra hne
      exact hnot ⟨fun h => hne (Or.inl h), fun h => hne (Or.inr h)⟩
    rw [List.length_cons] at hlen
    by_cases hpull : data[body.length + 1]? = some 13 ∧ data[body.length + 2]? = some 10
    · have h2 := (List.getElem?_eq_some_iff.mp hpull.2).1
      rw [hget, hget] at hpull
      obtain ⟨rest, hrest⟩ : ∃ rest, tail = 13 :: 10 :: rest := by
        match tail, hpull with
        | c :: d :: rest, hpull =>
          refine ⟨rest, ?_⟩
          rw [Option.some.inj hpull.1, Option.some.inj hpull.2]
      refine ⟨body, rest, h13, h10, rfl, Or.inr (Or.inr ⟨e, he, ?_, ?_⟩)⟩
      · rw [← hsplit, hrest]
      · unfold lineEnd
        dsimp only
        rw [if_pos (show body.length < data.length by omega), if_pos]
        rw [← hget, ← hget] at hpull
        exact ⟨h2, hpull.1, hpull.2⟩
    · have hno : ¬[13, 10] <+: tail := by
        rintro ⟨rest, rfl⟩
        exact hpull ⟨by rw [hget]; rfl, by rw [hget]; rfl⟩
      refine ⟨body, tail, h13, h10, rfl, Or.inr (Or.inl ⟨e, he, hsplit.symm, hno, ?_⟩)⟩
      unfold lineEnd
      dsimp only
      rw [if_pos (show body.length < data.length by omega), if_neg fun h => hpull ⟨h.2.1, h.2.2⟩]

/-! ## Parts of a file -/

/-- How many bytes so many lines are. -/
def lineOffset (lines : List Bytes) (n : ℕ) : ℕ := (lines.take n).flatten.length

/-- The bytes from one to another. -/
def bytesBetween (data : Bytes) (a b : ℕ) : Bytes := (data.drop a).take (b - a)

@[simp] theorem lineOffset_zero (lines : List Bytes) : lineOffset lines 0 = 0 := rfl

@[simp] theorem lineOffset_cons (line : Bytes) (lines : List Bytes) (n : ℕ) :
    lineOffset (line :: lines) (n + 1) = line.length + lineOffset lines n := by
  rw [lineOffset, List.take_succ_cons, List.flatten_cons, List.length_append]
  rfl

/-- Offsets of lines ascend with the lines. -/
theorem lineOffset_mono (lines : List Bytes) {m n : ℕ} (h : m ≤ n) :
    lineOffset lines m ≤ lineOffset lines n := by
  have hsplit : lines.take n = lines.take m ++ (lines.drop m).take (n - m) := by
    rw [← List.take_add, Nat.add_sub_cancel' h]
  rw [lineOffset, lineOffset, hsplit, List.flatten_append, List.length_append]
  exact Nat.le_add_right _ _

theorem drop_lineOffset (lines : List Bytes) (n : ℕ) :
    lines.flatten.drop (lineOffset lines n) = (lines.drop n).flatten := by
  conv_lhs => rw [← List.take_append_drop n lines, List.flatten_append]
  exact List.drop_left' (by rw [List.take_append_drop]; rfl)

/-- **Lines are bytes.** -/
theorem flatten_take_drop (lines : List Bytes) {m n : ℕ} (h : m ≤ n) :
    ((lines.drop m).take (n - m)).flatten
      = bytesBetween lines.flatten (lineOffset lines m) (lineOffset lines n) := by
  have hsplit : lines.take n = lines.take m ++ (lines.drop m).take (n - m) := by
    rw [← List.take_add, Nat.add_sub_cancel' h]
  have hlen : lineOffset lines n - lineOffset lines m
      = ((lines.drop m).take (n - m)).flatten.length := by
    rw [lineOffset, lineOffset, hsplit, List.flatten_append, List.length_append,
      Nat.add_sub_cancel_left]
  rw [bytesBetween, drop_lineOffset, hlen]
  conv_rhs =>
    rw [← List.take_append_drop (n - m) (lines.drop m), List.flatten_append]
  rw [List.take_append_drop, List.take_left' rfl]

/-- Two ranges of bytes that meet are one. -/
theorem bytesBetween_append (data : Bytes) {a b c : ℕ} (hab : a ≤ b) (hbc : b ≤ c) :
    bytesBetween data a b ++ bytesBetween data b c = bytesBetween data a c := by
  have hdrop : data.drop b = (data.drop a).drop (b - a) := by
    rw [List.drop_drop, Nat.add_sub_cancel' hab]
  have hlen : c - a = (b - a) + (c - b) := by omega
  rw [bytesBetween, bytesBetween, bytesBetween, hdrop, hlen, List.take_add]

theorem bytesBetween_drop (data : Bytes) {a b : ℕ} (hab : a ≤ b) :
    bytesBetween data a b ++ data.drop b = data.drop a := by
  have hdrop : data.drop b = (data.drop a).drop (b - a) := by
    rw [List.drop_drop, Nat.add_sub_cancel' hab]
  rw [bytesBetween, hdrop, List.take_append_drop]

/-! ## Where atoms are lines -/

/-- **The lines of a text**, given its first atom and what is behind that. -/
inductive FirstAtom : (atom rest : Bytes) → (lines : List Bytes) → Prop
  /-- There is no end of a line, or nothing behind it. -/
  | last {atom : Bytes} (h : 13 ∉ atom.dropLast) : FirstAtom atom [] [atom]
  | line {atom rest : Bytes} (h : 13 ∉ atom) (hrest : (textLines rest).head? ≠ some [13, 10]) :
    FirstAtom atom rest (atom :: textLines rest)
  /-- The next line has nothing but a carriage return, which is pulled into the atom. -/
  | pulled {line rest : Bytes} {lines : List Bytes} (h : 13 ∉ line)
      (hrest : textLines rest = [10] :: lines) :
    FirstAtom (line ++ [13]) rest (line :: [13, 10] :: lines)
  /-- A line is broken in two. -/
  | broken {atom rest line : Bytes} {lines : List Bytes} (h : 13 ∈ atom)
      (hrest : textLines rest = line :: lines) : FirstAtom atom rest ((atom ++ line) :: lines)

/-- More of a line, without its end. -/
theorem textLines_append {body line : Bytes} {ls : List Bytes} (h : 10 ∉ body)
    (hrest : textLines data = line :: ls) : textLines (body ++ data) = (body ++ line) :: ls := by
  induction body with
  | nil => exact hrest
  | cons c body ih =>
    have hc : ¬decide (c = 10) = true := by
      rw [decide_eq_true_iff]
      rintro rfl
      exact h List.mem_cons_self
    have ih := ih fun hmem => h (List.mem_cons_of_mem _ hmem)
    rw [textLines] at ih ⊢
    rw [List.cons_append, lines, if_neg hc, ih]
    rfl

theorem exists_textLines (hne : data ≠ []) : ∃ line lines, textLines data = line :: lines := by
  refine List.exists_cons_of_ne_nil fun hnil => hne ?_
  rw [← flatten_textLines data, hnil, List.flatten_nil]

/-- **The first atom of a text** is one of these. -/
theorem firstAtom_spec (ws : Bool) (hne : data ≠ []) (hfuel : data.length ≤ fuel + 1) :
    ∃ atom rest, (atomizeLoop ws (fuel + 1) data).map DiffAtom.data
        = atom :: (atomizeLoop ws fuel rest).map DiffAtom.data
      ∧ rest.length ≤ fuel ∧ FirstAtom atom rest (textLines data) := by
  obtain ⟨body, rest, h13, h10, hbody, hcases⟩ := lineEnd_cases data
  have hloop : (atomizeLoop ws (fuel + 1) data).map DiffAtom.data
      = data.take (lineEnd data body.length)
        :: (atomizeLoop ws fuel (data.drop (lineEnd data body.length))).map DiffAtom.data := by
    rw [atomizeLoop, ← hbody]
    · rfl
    · exact hne
  have hpos := lineEnd_pos hne body.length
  refine ⟨_, _, hloop, by rw [List.length_drop]; omega, ?_⟩
  rcases hcases with ⟨heq, hend⟩ | ⟨e, he, heq, hno, hend⟩ | ⟨e, he, heq, hend⟩
  · rw [hend, ← heq, List.take_length, List.drop_length, textLines_of_not_mem (heq ▸ h10) hne]
    exact .last fun hmem => h13 (heq ▸ List.mem_of_mem_dropLast hmem)
  · have hsplit : data = (body ++ [e]) ++ rest := by
      rw [heq, List.append_assoc, List.singleton_append]
    rw [hend, hsplit, List.take_left' (by simp), List.drop_left' (by simp)]
    rcases he with rfl | rfl
    · -- a carriage return ends the line only if it is the last byte
      have h10' : 10 ∉ body ++ [13] := by simpa using h10
      by_cases hlast : rest = []
      · subst hlast
        rw [List.append_nil, textLines_of_not_mem h10' (by simp)]
        exact .last (by rwa [List.dropLast_concat])
      · obtain ⟨line, lines, hlines⟩ := exists_textLines hlast
        rw [textLines_append h10' hlines]
        exact .broken (by simp) hlines
    · rw [List.append_assoc, List.singleton_append, textLines_cons h10]
      refine .line (by simpa using h13) fun hhead => hno ?_
      obtain ⟨lines, hlines⟩ := List.head?_eq_some_iff.mp hhead
      rw [← flatten_textLines rest, hlines]
      exact List.prefix_append _ _
  · have hsplit : data = (body ++ [e, 13]) ++ 10 :: rest := by
      rw [heq, List.append_assoc]
      rfl
    have hrest : textLines (10 :: rest) = [10] :: textLines rest :=
      @textLines_cons [] List.not_mem_nil rest
    rw [hend, hsplit, List.take_left' (by simp), List.drop_left' (by simp)]
    rcases he with rfl | rfl
    · rw [textLines_append (by simpa using h10) hrest]
      exact .broken (by simp) hrest
    · have hlines : textLines (13 :: 10 :: rest) = [13, 10] :: textLines rest :=
        @textLines_cons [13] (by decide) rest
      have hpulled : body ++ [10, 13] = (body ++ [10]) ++ [13] := by simp
      rw [List.append_assoc, show [10, 13] ++ 10 :: rest = 10 :: 13 :: 10 :: rest from rfl,
        textLines_cons h10, hlines, hpulled]
      exact .pulled (by simpa using h13) hrest

/-- **So many atoms end before one line more.** -/
theorem lineOffset_atoms_lt (ws : Bool) {m : ℕ} (hfuel : data.length ≤ fuel)
    (hm : m < (textLines data).length) :
    lineOffset ((atomizeLoop ws fuel data).map DiffAtom.data) m
      < lineOffset (textLines data) (m + 1) := by
  induction fuel generalizing data m with
  | zero =>
    rw [List.eq_nil_of_length_eq_zero (Nat.le_zero.mp hfuel)] at hm
    exact absurd hm (Nat.not_lt_zero _)
  | succ fuel ih =>
    have hne : data ≠ [] := by
      rintro rfl
      exact absurd hm (Nat.not_lt_zero _)
    cases m with
    | zero =>
      obtain ⟨line, lines, hlines⟩ := exists_textLines hne
      have hpos := List.length_pos_iff.mpr (ne_nil_of_mem_lines (hlines ▸ List.mem_cons_self))
      rw [hlines, lineOffset_cons, lineOffset_zero, lineOffset_zero]
      exact Nat.add_pos_left hpos 0
    | succ m =>
      obtain ⟨atom, rest, hatoms, hrest, hfirst⟩ := firstAtom_spec ws hne hfuel
      rw [hatoms, lineOffset_cons]
      generalize textLines data = lines at hfirst hm
      cases hfirst with
      | last h => exact absurd (Nat.lt_of_succ_lt_succ hm) (Nat.not_lt_zero m)
      | line h hhead =>
        rw [lineOffset_cons]
        exact Nat.add_lt_add_left (ih hrest (Nat.lt_of_succ_lt_succ hm)) _
      | @pulled line _ lines h hlines =>
        have hlt := ih hrest (m := m) (by rw [hlines]; exact Nat.lt_of_succ_lt_succ hm)
        rw [hlines, lineOffset_cons] at hlt
        rw [lineOffset_cons, lineOffset_cons, List.length_append]
        simp only [List.length_cons, List.length_nil] at hlt ⊢
        omega
      | @broken _ _ line lines h hlines =>
        have hlt := ih hrest (m := m) (by rw [hlines]; exact Nat.lt_of_succ_lt hm)
        have hmono := lineOffset_mono lines (Nat.le_add_right m 1)
        rw [hlines, lineOffset_cons] at hlt
        rw [lineOffset_cons, List.length_append]
        omega

/-- **Carriage returns do no harm to the first lines**: each is the only byte of a line before its
line feed, or the very last byte of the text; and neither the first line is such a line, as there
is no atom before, nor the one behind, whose carriage return belongs to an atom before it. -/
def HarmlessReturns (lines : List Bytes) (n : ℕ) : Prop :=
  n = 0 ∨ lines.head? ≠ some [13, 10] ∧ lines[n]? ≠ some [13, 10]
    ∧ ∀ line ∈ lines.take n, line = [13, 10] ∨ 13 ∉ line.dropLast

instance (lines : List Bytes) (n : ℕ) : Decidable (HarmlessReturns lines n) :=
  inferInstanceAs (Decidable (_ ∨ _ ∧ _ ∧ _))

/-- **Where the two ways of cutting lines agree.** Up to `n` lines the offsets are the same exactly
when the carriage returns in them do no harm. -/
theorem lineOffset_atomizeLoop_eq_iff (ws : Bool) {n : ℕ} (hfuel : data.length ≤ fuel)
    (hn : n ≤ (atomizeLoop ws fuel data).length) :
    (n ≤ (textLines data).length ∧ lineOffset (textLines data) n
        = lineOffset ((atomizeLoop ws fuel data).map DiffAtom.data) n)
      ↔ HarmlessReturns (textLines data) n := by
  have hplain {line : Bytes} (h : 13 ∉ line) : line = [13, 10] ∨ 13 ∉ line.dropLast :=
    .inr fun hmem => h (List.mem_of_mem_dropLast hmem)
  have hne {line : Bytes} (h : 13 ∉ line) : line ≠ [13, 10] := by
    rintro rfl
    exact h (by decide)
  induction fuel generalizing data n with
  | zero =>
    obtain rfl : n = 0 := Nat.le_zero.mp hn
    exact iff_of_true ⟨Nat.zero_le _, rfl⟩ (.inl rfl)
  | succ fuel ih =>
    cases n with
    | zero => exact iff_of_true ⟨Nat.zero_le _, rfl⟩ (.inl rfl)
    | succ m =>
      have hdata : data ≠ [] := by
        rintro rfl
        exact absurd hn (Nat.not_succ_le_zero m)
      obtain ⟨atom, rest, hatoms, hrest, hfirst⟩ := firstAtom_spec ws hdata hfuel
      have hlen := congrArg List.length hatoms
      rw [List.length_map, List.length_cons, List.length_map] at hlen
      rw [hlen] at hn
      have ih := ih hrest (Nat.le_of_succ_le_succ hn)
      have hsucc : ∀ lines, HarmlessReturns lines (m + 1) ↔ lines.head? ≠ some [13, 10]
          ∧ lines[m + 1]? ≠ some [13, 10]
          ∧ ∀ line ∈ lines.take (m + 1), line = [13, 10] ∨ 13 ∉ line.dropLast :=
        fun lines => or_iff_right m.succ_ne_zero
      rw [hatoms, lineOffset_cons, hsucc]
      generalize textLines data = lines at hfirst
      cases hfirst with
      | last h =>
        have hatom : [13, 10] ≠ atom := by
          rintro rfl
          exact h (by decide)
        cases fuel <;> obtain rfl : m = 0 := Nat.le_zero.mp (Nat.le_of_succ_le_succ hn)
        all_goals simpa [hatom.symm] using h
      | line h hhead =>
        rw [List.length_cons, lineOffset_cons, Nat.succ_le_succ_iff, Nat.add_left_cancel_iff]
        refine ih.trans ?_
        cases m with
        | zero =>
          refine iff_of_true (.inl rfl) ⟨by simpa using hne h, ?_, ?_⟩
          · rwa [List.getElem?_cons_succ, ← List.head?_eq_getElem?]
          · simpa using hplain h
        | succ m =>
          rw [HarmlessReturns, or_iff_right m.succ_ne_zero, and_iff_right hhead,
            List.getElem?_cons_succ, List.take_succ_cons, List.forall_mem_cons,
            and_iff_right (hplain h), List.head?_cons]
          exact (and_iff_right (by simpa using hne h)).symm
      | @pulled line _ lines h hlines =>
        rw [hlines] at ih
        cases m with
        | zero =>
          -- the atom ends behind the next carriage return
          refine iff_of_false (fun hboth => ?_) fun hboth => hboth.2.1 rfl
          have heq := hboth.2
          simp only [lineOffset_cons, lineOffset_zero, List.length_append, List.length_cons,
            List.length_nil] at heq
          omega
        | succ m =>
          have hoffset : lineOffset (line :: [13, 10] :: lines) (m + 1 + 1) =
              (line ++ [13]).length + lineOffset ([10] :: lines) (m + 1) := by
            simp only [lineOffset_cons, List.length_append, List.length_cons, List.length_nil]
            omega
          rw [List.length_cons, List.length_cons, ← List.length_cons (a := [10]), hoffset,
            Nat.succ_le_succ_iff, Nat.add_left_cancel_iff]
          have hhead : ([10] :: lines).head? ≠ some [13, 10] := by simp
          have hline : (line :: [13, 10] :: lines).head? ≠ some [13, 10] := by simpa using hne h
          refine ih.trans ?_
          rw [HarmlessReturns, or_iff_right m.succ_ne_zero, and_iff_right hhead,
            and_iff_right hline, List.getElem?_cons_succ, List.getElem?_cons_succ,
            List.getElem?_cons_succ, List.take_succ_cons, List.take_succ_cons, List.take_succ_cons,
            List.forall_mem_cons, List.forall_mem_cons, List.forall_mem_cons,
            and_iff_right (@hplain [10] (by decide)), and_iff_right (hplain h)]
          exact and_congr_right fun _ => (and_iff_right (.inl rfl)).symm
      | @broken _ _ line lines h hlines =>
        have hline : line ≠ [] := ne_nil_of_mem_lines (hlines ▸ List.mem_cons_self)
        refine iff_of_false (fun hboth => ?_) fun hboth => ?_
        · -- so many atoms end before
          have hlt := lineOffset_atoms_lt ws hrest (m := m) (by
            rw [hlines]
            exact hboth.1)
          have heq := hboth.2
          rw [hlines, lineOffset_cons] at hlt
          rw [lineOffset_cons, List.length_append] at heq
          omega
        · rcases hboth.2.2 _ List.mem_cons_self with heq | hmem
          · exact hboth.1 (congrArg some heq)
          · rw [List.dropLast_append_of_ne_nil hline] at hmem
            exact hmem (List.mem_append_left _ h)

/-- The atoms of a text, as lines. -/
def atomLines (data : Bytes) : List Bytes := (diffDataAtomizeTextLines false data).map DiffAtom.data

/-- **So many lines of a text**, which there are, **are so many atoms** of it. -/
def SamePlace (data : Bytes) (n : ℕ) : Prop :=
  n ≤ (textLines data).length ∧ lineOffset (textLines data) n = lineOffset (atomLines data) n

/-- This is so if and only if carriage returns do no harm to these lines. -/
theorem samePlace_iff {n : ℕ} (hn : n ≤ (atomLines data).length) :
    SamePlace data n ↔ HarmlessReturns (textLines data) n :=
  lineOffset_atomizeLoop_eq_iff false le_rfl (hn.trans_eq (List.length_map _))

end Got

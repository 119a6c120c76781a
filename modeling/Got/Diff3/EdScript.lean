import Got.Diff.EdScript
import Got.Diff3.Readers

/-!
# What a three-way merge makes of an ed script

The line numbers of an ed script count atoms, and the readers of a three-way merge count
lines. `EdScriptFaithful` is that this comes to the same: the lines that are read for a change are
the atoms of the change, and with them one file is made from the other.

It holds if and only if carriage returns do no harm to what comes before the changes, and
what the files have in common is not preceded by changed lines in one file only
(`edScriptFaithful_iff`). For a position before the first line is written as if it were one
behind it, so that lines that are put in at the top end up behind the first line. Behind the last
change there may be any carriage returns, as the script does not say anything about what is there.
-/

namespace Got

open Lines Numeral

variable {root : DiffRoot} {chunks : List DiffChunk} {ccs : List DiffChunkContext}
  {cc : DiffChunkContext} {range : DiffRange} {data left right p : Bytes} {file : List Bytes}
  {c : DiffChunk} {i l r l' r' n m k len : ℕ}

/-! ## What the readers take for a line -/

/-- The loop of `rcs_splitlines` splits at newlines and keeps an unended last line. -/
theorem rcsSplitlinesLoop_eq (line : Bytes) (hne : data ≠ []) (hline : 10 ∉ line) :
    rcsSplitlinesLoop line data = textLines (line ++ data) := by
  induction data generalizing line with
  | nil => exact absurd rfl hne
  | cons c data ih =>
    rw [rcsSplitlinesLoop]
    split
    · next hend =>
      by_cases hc : c = 10
      · subst hc
        rw [textLines_cons hline]
        cases data with
        | nil => rfl
        | cons d data =>
          rw [ih [] (List.cons_ne_nil _ _) List.not_mem_nil, List.nil_append]
      · obtain rfl := hend.resolve_left hc
        rw [textLines_of_not_mem _ (by simp)]
        · rfl
        · rw [List.mem_append, List.mem_singleton]
          exact fun h => h.elim hline (fun h => hc h.symm)
    · next hend =>
      obtain ⟨hc, hdata⟩ := not_or.mp hend
      rw [ih _ hdata, List.append_assoc, List.singleton_append]
      rw [List.mem_append, List.mem_singleton]
      exact fun h => h.elim hline (fun h => hc h.symm)

/-- `rcs_splitlines` finds the lines of a text. -/
theorem rcsSplitlines_eq (data : Bytes) : rcsSplitlines data = textLines data := by
  by_cases hne : data = []
  · subst hne
    rfl
  · exact rcsSplitlinesLoop_eq [] hne List.not_mem_nil

/-! ## Line numbers -/

/-- Behind a number that is printed. -/
theorem readNumber_decimal (n : ℕ) (h : ∀ c ∈ p.head?, digitValue 10 c = none) :
    readNumber 10 (decimal n ++ p) 0 = (n, p) :=
  readNumber_numeral (by decide) (by decide) n h

/-- **A range that is printed is read.** -/
theorem readNumbers_lineNumbers (range : DiffRange) (start : ℕ) {kind : UInt8}
    (hdigit : digitValue 10 kind = none) (hcomma : kind ≠ ','.toUInt8) :
    readNumbers (lineNumbers range start ++ kind :: p)
      = (⟨start, if range.end_ - range.start = 1 then start else range.end_⟩, kind :: p) := by
  have hkind : ∀ c ∈ (kind :: p).head?, digitValue 10 c = none := by
    intro c hc
    obtain rfl := Option.some.inj hc
    exact hdigit
  unfold lineNumbers
  by_cases hone : range.end_ - range.start = 1
  · rw [if_pos hone, if_pos hone, readNumbers, readNumber_decimal start hkind]
    dsimp only
    rw [List.head?_cons, if_neg fun h => hcomma (Option.some.inj h)]
  · have hsep : ∀ c ∈ (','.toUInt8 :: (decimal range.end_ ++ kind :: p)).head?,
        digitValue 10 c = none := by
      intro c hc
      obtain rfl := Option.some.inj hc
      decide
    rw [if_neg hone, if_neg hone, List.append_assoc, List.cons_append, readNumbers,
      readNumber_decimal start hsep]
    dsimp only
    rw [List.head?_cons, if_pos rfl, List.tail_cons, readNumber_decimal range.end_ hkind]

theorem readNumbers_decimal (n : ℕ) {kind : UInt8} (hdigit : digitValue 10 kind = none)
    (hcomma : kind ≠ ','.toUInt8) :
    readNumbers (decimal n ++ kind :: p) = (⟨n, n⟩, kind :: p) :=
  @readNumbers_lineNumbers p ⟨0, 1⟩ n kind hdigit hcomma

/-- What is read of a command, given what is read before its kind and behind it. -/
theorem readChange_of {old new : LineRange} {kind : UInt8} {q : Bytes}
    (hold : ∀ rest, readNumbers (p ++ kind :: rest) = (old, kind :: rest))
    (hnew : readNumbers (q ++ [10]) = (new, [10])) :
    readChange (p ++ kind :: q ++ [10])
      = ⟨⟨if kind = 'a'.toUInt8 then old.from_ + 1 else old.from_, old.to_ + 1⟩,
        ⟨if kind = 'd'.toUInt8 then new.from_ + 1 else new.from_, new.to_ + 1⟩⟩ := by
  rw [readChange, List.append_assoc, List.cons_append, hold]
  dsimp only
  rw [List.tail_cons, hnew]
  simp only [List.head?_cons, Option.some.injEq]

/-- **The change that a context is**, in lines. -/
def changeOf (cc : DiffChunkContext) : Diff3Change :=
  ⟨⟨cc.left.start + 1, cc.left.end_ + 1⟩, ⟨cc.right.start + 1, cc.right.end_ + 1⟩⟩

/-- The lines that are read for a range. -/
def readRange (range : DiffRange) (len : ℕ) : LineRange :=
  if range.end_ - range.start = 0 then ⟨lineNumber range len + 1, lineNumber range len + 1⟩
  else ⟨range.start + 1, range.end_ + 1⟩

/-- A range of atoms. -/
structure DiffRange.Within (range : DiffRange) (len : ℕ) : Prop where
  start_le : range.start ≤ range.end_
  end_le : range.end_ ≤ len

/-- **The numbers of a command are read.** -/
theorem readChange_outputEdscriptChunk (hl : cc.left.Within root.left.length)
    (hr : cc.right.Within root.right.length)
    (hne : cc.left.start < cc.left.end_ ∨ cc.right.start < cc.right.end_) :
    readChange (outputEdscriptChunk root cc)
      = ⟨readRange cc.left root.left.length, readRange cc.right root.right.length⟩ := by
  obtain ⟨hl, hl'⟩ := hl
  obtain ⟨hr, hr'⟩ := hr
  have hend : ∀ {range : DiffRange} {len : ℕ}, range.start < range.end_ → range.end_ ≤ len →
      lineNumber range len = range.start + 1
        ∧ (if range.end_ - range.start = 1 then lineNumber range len else range.end_)
          = range.end_ := by
    intro range len hlt hle
    have heq : lineNumber range len = range.start + 1 := by
      unfold lineNumber
      rw [if_neg (by omega), if_neg (by omega)]
    refine ⟨heq, ?_⟩
    rw [heq]
    split <;> omega
  unfold outputEdscriptChunk readRange
  dsimp only
  split
  · next hempty =>
    have hright := hend (by omega) hr'
    rw [readChange_of (fun rest => readNumbers_decimal _ (by decide) (by decide))
      (readNumbers_lineNumbers cc.right _ (by decide) (by decide))]
    dsimp only
    rw [hright.2, hright.1, if_pos (by decide), if_neg (by decide), if_neg (by omega)]
  · next hleft =>
    have hleft' := hend (by omega) hl'
    split
    · next hempty =>
      rw [readChange_of (fun rest => readNumbers_lineNumbers cc.left _ (by decide) (by decide))
        (readNumbers_decimal _ (by decide) (by decide))]
      dsimp only
      rw [hleft'.2, hleft'.1, if_neg (by decide), if_pos (by decide)]
    · next hright =>
      have hright' := hend (by omega) hr'
      rw [readChange_of (fun rest => readNumbers_lineNumbers cc.left _ (by decide) (by decide))
        (readNumbers_lineNumbers cc.right _ (by decide) (by decide))]
      dsimp only
      rw [hleft'.2, hleft'.1, hright'.2, hright'.1, if_neg (by decide), if_neg (by decide)]

/-! ## The commands of a script -/

/-- A digit to the base of ten. -/
theorem isdigit_of_digitValue {c : UInt8} (h : (digitValue 10 c).isSome) : isdigit c := by
  by_contra hc
  unfold digitValue at h
  unfold isdigit at hc
  simp only [decide_eq_true_eq] at hc
  rw [if_neg hc] at h
  have h97 : ∀ h : 97 ≤ c, 97 ≤ c.toNat := fun h => UInt8.le_iff_toNat_le.mp h
  have h65 : ∀ h : 65 ≤ c, 65 ≤ c.toNat := fun h => UInt8.le_iff_toNat_le.mp h
  split at h
  · next hlow =>
    have := h97 hlow.1
    rw [if_neg (by omega)] at h
    exact absurd h (by decide)
  · split at h
    · next hup =>
      have := h65 hup.1
      rw [if_neg (by omega)] at h
      exact absurd h (by decide)
    · exact absurd h (by decide)

/-- A number that is printed has digits only. -/
theorem isdigit_of_mem_decimal {c : UInt8} (h : c ∈ decimal n) : isdigit c :=
  isdigit_of_digitValue ((numeral_spec (by decide) (by decide) n).2 c h)

/-- What is printed for a range is not empty, and has digits and commas. -/
theorem lineNumbers_spec (range : DiffRange) (start : ℕ) :
    (∃ c ∈ (lineNumbers range start).head?, isdigit c)
      ∧ ∀ c ∈ lineNumbers range start, isdigit c ∨ c = ','.toUInt8 := by
  have hne : decimal start ≠ [] := (numeral_spec (by decide) (by decide) start).1
  obtain ⟨c, digits, hcons⟩ := List.exists_cons_of_ne_nil hne
  have hfirst : isdigit c := isdigit_of_mem_decimal (hcons ▸ List.mem_cons_self)
  unfold lineNumbers
  split
  · exact ⟨⟨c, by rw [hcons]; rfl, hfirst⟩, fun c hc => Or.inl (isdigit_of_mem_decimal hc)⟩
  · refine ⟨⟨c, by rw [hcons]; rfl, hfirst⟩, fun c hc => ?_⟩
    rcases List.mem_append.mp hc with hc | hc
    · exact Or.inl (isdigit_of_mem_decimal hc)
    · exact (List.mem_cons.mp hc).symm.imp isdigit_of_mem_decimal id

/-- **A command is one line**, which begins with a digit. -/
theorem outputEdscriptChunk_line (root : DiffRoot) (cc : DiffChunkContext) :
    ∃ body, outputEdscriptChunk root cc = body ++ [10] ∧ 10 ∉ body
      ∧ isChangeLine (body ++ [10]) := by
  have hbody : ∀ {p q : Bytes} {kind : UInt8}, (∃ c ∈ p.head?, isdigit c) →
      (∀ c ∈ p, isdigit c ∨ c = ','.toUInt8) → (∀ c ∈ q, isdigit c ∨ c = ','.toUInt8) → kind ≠ 10 →
      10 ∉ p ++ kind :: q ∧ isChangeLine (p ++ kind :: q ++ [10]) := by
    intro p q kind hfirst hp hq hkind
    have hno : ¬((isdigit 10 : Prop) ∨ (10 : UInt8) = ','.toUInt8) := by decide
    constructor
    · rw [List.mem_append, List.mem_cons]
      rintro (h | h | h)
      · exact hno (hp 10 h)
      · exact hkind h.symm
      · exact hno (hq 10 h)
    · obtain ⟨c, hc, hdigit⟩ := hfirst
      cases p with
      | nil => nomatch hc
      | cons c' p =>
        obtain rfl := Option.some.inj hc
        exact hdigit
  have hdecimal : ∀ n, lineNumbers ⟨0, 1⟩ n = decimal n := fun n => rfl
  have hspec := lineNumbers_spec
  unfold outputEdscriptChunk
  dsimp only
  rw [← hdecimal, ← hdecimal]
  split
  · exact ⟨_, rfl, hbody (hspec _ _).1 (hspec _ _).2 (hspec _ _).2 (by decide)⟩
  · split
    · exact ⟨_, rfl, hbody (hspec _ _).1 (hspec _ _).2 (hspec _ _).2 (by decide)⟩
    · exact ⟨_, rfl, hbody (hspec _ _).1 (hspec _ _).2 (hspec _ _).2 (by decide)⟩

/-- **The commands are read one by one.** -/
theorem readin_diffOutputEdscript (root : DiffRoot) (chunks : List DiffChunk) :
    readin (diffOutputEdscript root chunks)
      = (diffChunkContexts root 0 0 chunks none).map
          (fun cc => readChange (outputEdscriptChunk root cc)) := by
  unfold diffOutputEdscript
  generalize diffChunkContexts root 0 0 chunks none = ccs
  unfold readin
  have hlines : textLines (ccs.flatMap (outputEdscriptChunk root))
      = ccs.map (outputEdscriptChunk root) := by
    have h := @lines_append _ (fun c : UInt8 => decide (c = 10))
      (ccs.map (outputEdscriptChunk root))
      (fun line hline => by
        obtain ⟨cc, -, rfl⟩ := List.mem_map.mp hline
        obtain ⟨body, heq, hbody, -⟩ := outputEdscriptChunk_line root cc
        exact ⟨body, 10, heq, rfl, fun c hc => decide_eq_false fun h => hbody (h ▸ hc)⟩) []
    rwa [List.append_nil, lines_nil, List.append_nil, ← List.flatMap_def] at h
  have hend : ∀ cc, endLine (outputEdscriptChunk root cc) = outputEdscriptChunk root cc := by
    intro cc
    obtain ⟨body, heq, -⟩ := outputEdscriptChunk_line root cc
    rw [heq, endLine, List.getLast?_concat, if_pos rfl]
  rw [hlines, List.map_map, List.filter_eq_self.mpr, List.map_map]
  · exact List.map_congr_left fun cc _ => congrArg readChange (hend cc)
  · intro line hline
    obtain ⟨cc, -, rfl⟩ := List.mem_map.mp hline
    obtain ⟨body, heq, -, hchange⟩ := outputEdscriptChunk_line root cc
    rw [Function.comp_apply, hend, heq]
    exact hchange

/-! ## Skipping to a line -/

/-- **Lines of a file**: each but the last one has its end. -/
def Ended : List Bytes → Prop
  | [] => True
  | line :: file => (file ≠ [] → endLine line = line) ∧ Ended file

/-- Every line of a file but the last is ended. -/
theorem ended_textLines (data : Bytes) : Ended (textLines data) := by
  have hlines : ∀ (file : List Bytes) (data : Bytes), textLines data = file → Ended file := by
    intro file
    induction file with
    | nil => exact fun _ _ => trivial
    | cons line file ih =>
      intro data h
      have htail := textLines_drop data 1
      rw [h, List.drop_succ_cons, List.drop_zero] at htail
      refine ⟨fun hne => ?_, ih _ htail⟩
      rw [endLine, getLast?_of_textLines h hne, if_pos rfl]
  exact hlines _ data rfl

/-- All lines but the last one are ended also if the first ones are dropped. -/
theorem Ended.drop (h : Ended file) (n : ℕ) : Ended (file.drop n) := by
  induction n generalizing file with
  | zero => exact h
  | succ n ih =>
    cases file with
    | nil => exact h
    | cons line file => exact ih h.2

/-- Lines are skipped in one go, or in two. -/
theorem skipLines_add (hn : n ≤ file.length) (h : skipLines n file = some m) (k : ℕ) :
    skipLines (n + k) file = (skipLines k (file.drop n)).map (m + ·) := by
  induction n generalizing file m with
  | zero =>
    obtain rfl := Option.some.inj h
    rw [Nat.zero_add, List.drop_zero]
    simp
  | succ n ih =>
    cases file with
    | nil => exact absurd hn (Nat.not_succ_le_zero n)
    | cons line file =>
      rw [List.length_cons] at hn
      obtain ⟨m', hm', rfl⟩ : ∃ m', skipLines n file = some m'
        ∧ (endLine line).length + m' = m := by
        simpa [skipLines, getLine, Option.bind_eq_some_iff] using h
      have ih := ih (Nat.le_of_succ_le_succ hn) hm'
      rw [Nat.succ_add, List.drop_succ_cons]
      simp only [skipLines, getLine, Option.bind_eq_bind, Option.bind_some, Option.pure_def, ih]
      cases skipLines k (List.drop n file) with
      | none => rfl
      | some j => simp [Nat.add_assoc]

/-- **Skipping to a line** leaves what comes from there on, and passes what is before it. -/
theorem skipLines_spec (hfile : Ended file) (hn : n ≤ file.length) :
    ∃ m, skipLines n file = some m ∧ file.flatten.drop m = (file.drop n).flatten
      ∧ file.flatten.take m = (file.take n).flatten := by
  induction n generalizing file with
  | zero => exact ⟨0, rfl, rfl, rfl⟩
  | succ n ih =>
    cases file with
    | nil => exact absurd hn (Nat.not_succ_le_zero n)
    | cons line file =>
      obtain ⟨hline, hfile⟩ := hfile
      rw [List.length_cons] at hn
      obtain ⟨m, hm, hdrop, htake⟩ := ih hfile (Nat.le_of_succ_le_succ hn)
      refine ⟨(endLine line).length + m, by simp [skipLines, getLine, hm], ?_⟩
      rw [List.flatten_cons, List.drop_succ_cons, List.take_succ_cons, List.flatten_cons]
      by_cases hlast : file = []
      · -- the last line may have got an end that it does not have
        subst hlast
        have hle : line.length ≤ (endLine line).length + m := by
          rw [endLine]
          split
          · omega
          · rw [List.length_append]
            omega
        rw [List.flatten_nil, List.append_nil, List.drop_of_length_le hle,
          List.take_of_length_le hle,
          List.drop_nil, List.take_nil, List.flatten_nil, List.append_nil]
        exact ⟨rfl, rfl⟩
      · rw [hline hlast, List.drop_length_add_append, List.take_length_add_append, hdrop, htake]
        exact ⟨rfl, rfl⟩

/-- **The lines of a change are found.** -/
theorem changedLines_eq (hr : r ≤ r') (hr' : r' ≤ (textLines right).length) {change : Diff3Change}
    (hfrom : change.new.from_ = r + 1) (hto : change.new.to_ = r' + 1) :
    changedLines right change = some ((((textLines right).drop r).take (r' - r)).flatten) := by
  have hfile := ended_textLines right
  obtain ⟨m, hm, hdrop, -⟩ := skipLines_spec hfile (hr.trans hr')
  obtain ⟨k, hk, -, htake⟩ := @skipLines_spec _ (r' - r) (hfile.drop r) (by
    rw [List.length_drop]
    omega)
  have hadd := skipLines_add (hr.trans hr') hm (r' - r)
  rw [Nat.add_sub_cancel' hr, hk] at hadd
  rw [flatten_textLines] at hdrop
  rw [changedLines, hfrom, hto, Nat.add_sub_cancel, Nat.add_sub_cancel, hm, hadd]
  show some ((right.drop m).take (m + k - m)) = _
  rw [hdrop, Nat.add_sub_cancel_left, htake]

/-! ## Making the changes -/

/-- One change is made. -/
theorem patchLines_eq (hl' : l' ≤ file.length) (hr : r ≤ r')
    (hr' : r' ≤ (textLines right).length) (hcc : changeOf cc = ⟨⟨l + 1, l' + 1⟩, ⟨r + 1, r' + 1⟩⟩) :
    patchLines right (changeOf cc) file = some (file.take l
      ++ (((textLines right).drop r).take (r' - r)).flatten :: file.drop l') := by
  rw [patchLines, changedLines_eq hr hr' (by rw [hcc]) (by rw [hcc]), hcc]
  show (if l' + 1 ≤ file.length + 1 then _ else none) = _
  rw [if_pos (Nat.succ_le_succ hl')]
  rfl

theorem length_left (left right : Bytes) :
    (textRoot left right).left.length = (atomLines left).length := (List.length_map _).symm

theorem length_right (left right : Bytes) :
    (textRoot left right).right.length = (atomLines right).length := (List.length_map _).symm

theorem SamePlace.zero (data : Bytes) : SamePlace data 0 := ⟨Nat.zero_le _, rfl⟩

/-- **The lines between two places** are the atoms between them. -/
theorem flatten_between (hm : SamePlace data m) (hn : SamePlace data n) (hle : m ≤ n) :
    (((textLines data).drop m).take (n - m)).flatten
      = bytesBetween data (lineOffset (atomLines data) m) (lineOffset (atomLines data) n) := by
  rw [flatten_take_drop _ hle, flatten_textLines, hm.2, hn.2]

/-- **The changes make one file from the other**, from an atom on. The changes behind it come first,
and leave alone what is before it. So what there is from a place before it on is what was there up
to the atom, and what the other file has behind it. -/
theorem patchAll_hunks (h : Hunks (textRoot left right) 0 i l r chunks ccs)
    (hs : Stretch (textRoot left right) l r chunks (textRoot left right).left.length
      (textRoot left right).right.length)
    (hplace : ∀ cc ∈ ccs, (SamePlace left cc.left.start ∧ SamePlace left cc.left.end_)
      ∧ SamePlace right cc.right.start ∧ SamePlace right cc.right.end_) :
    ∃ file, patchAll right (ccs.map changeOf) (textLines left) = some file
      ∧ ∀ k ≤ l, SamePlace left k → k ≤ file.length ∧ file.take k = (textLines left).take k
        ∧ (file.drop k).flatten
          = bytesBetween left (lineOffset (atomLines left) k) (lineOffset (atomLines left) l)
            ++ right.drop (lineOffset (atomLines right) r) := by
  have hflat (data : Bytes) : (atomLines data).flatten = data := flatten_atoms false data
  have hall (data : Bytes) : lineOffset (atomLines data) (atomLines data).length = data.length := by
    rw [lineOffset, List.take_length, hflat]
  induction h with
  | nil i l r =>
    obtain ⟨rfl, rfl⟩ := Stretch.nil_iff.mp hs
    refine ⟨textLines left, rfl, fun k hk hplace => ⟨hplace.1, rfl, ?_⟩⟩
    rw [length_left] at hk ⊢
    have hdrop := bytesBetween_drop left (lineOffset_mono (atomLines left) hk)
    rw [hall, List.drop_length, List.append_nil] at hdrop
    rw [length_right, hall, hall, List.drop_length, List.append_nil, hdrop, ← drop_lineOffset,
      flatten_textLines, hplace.2]
  | @same i l r c chunks ccs hc h ih =>
    obtain ⟨rfl, rfl, hgood, hs⟩ := Stretch.cons_iff.mp hs
    obtain ⟨file, hfile, hkept⟩ := ih hs hplace
    refine ⟨file, hfile, fun k hk hk' => ?_⟩
    have hend : c.leftStart ≤ c.leftEnd := Nat.le_add_right _ _
    have hend' : c.rightStart ≤ c.rightEnd := Nat.le_add_right _ _
    obtain ⟨hlen, htake, hdrop⟩ := hkept k (hk.trans hend) hk'
    -- what the chunk has on either side
    have hsame : bytesBetween left (lineOffset (atomLines left) c.leftStart)
          (lineOffset (atomLines left) c.leftEnd)
        = bytesBetween right (lineOffset (atomLines right) c.rightStart)
          (lineOffset (atomLines right) c.rightEnd) := by
      have hlines : ((atomLines left).drop c.leftStart).take c.leftCount
          = ((atomLines right).drop c.rightStart).take c.rightCount := hgood.same_lines hc rfl
      have hl := flatten_take_drop (atomLines left) hend
      have hr := flatten_take_drop (atomLines right) hend'
      rw [hflat, DiffChunk.leftEnd, Nat.add_sub_cancel_left] at hl
      rw [hflat, DiffChunk.rightEnd, Nat.add_sub_cancel_left] at hr
      rw [DiffChunk.leftEnd, DiffChunk.rightEnd, ← hl, ← hr, hlines]
    refine ⟨hlen, htake, ?_⟩
    rw [hdrop, ← bytesBetween_append left (lineOffset_mono _ hk) (lineOffset_mono _ hend), hsame,
      List.append_assoc, bytesBetween_drop right (lineOffset_mono _ hend')]
  | @hunk i l r l' r' hunk rest ccs hhunk hapart h ih =>
    obtain ⟨l₁, r₁, hs', hs⟩ := Stretch.append_iff.mp hs
    obtain ⟨rfl, rfl⟩ := hs'.unique hhunk.stretch
    obtain ⟨hcc, hplace⟩ := List.forall_mem_cons.mp hplace
    obtain ⟨file, hfile, hkept⟩ := ih hs hplace
    have hl := hs'.le
    have hl' := hs.le
    have hcontext : stretchContext (textRoot left right) 0 i hunk.length l r l₁ r₁
        = ⟨⟨i, i + hunk.length⟩, ⟨l, l₁⟩, ⟨r, r₁⟩⟩ := by
      simp only [stretchContext, Nat.sub_zero, Nat.add_zero, min_eq_right hl'.1,
        min_eq_right hl'.2.1]
    rw [hcontext] at hcc
    obtain ⟨⟨hstart, hend⟩, hstart', hend'⟩ := hcc
    dsimp only at hstart hend hstart' hend'
    obtain ⟨hlen, htake, hdrop⟩ := hkept l₁ le_rfl hend
    have hpatch := @patchLines_eq _ right file l r l₁ r₁ hlen hl.2.1 hend'.1
      (congrArg changeOf hcontext)
    rw [flatten_between hstart' hend' hl.2.1] at hpatch
    refine ⟨_, by rw [List.map_cons, patchAll, hfile]; exact hpatch, fun k hk hk' => ?_⟩
    have htake' : file.take l = (textLines left).take l := by
      have h := congrArg (List.take l) htake
      rwa [List.take_take, List.take_take, min_eq_left hl.1] at h
    have hlen' : (file.take l).length = l := by
      rw [List.length_take]
      omega
    refine ⟨?_, ?_, ?_⟩
    · rw [List.length_append]
      omega
    · rw [List.take_append_of_le_length (by omega), htake', List.take_take, min_eq_left hk]
    · rw [bytesBetween, Nat.sub_self, List.take_zero, List.nil_append] at hdrop
      rw [List.drop_append_of_le_length (by omega), htake', List.drop_take, List.flatten_append,
        List.flatten_cons, hdrop, flatten_between hk' hstart hk,
        bytesBetween_drop right (lineOffset_mono _ hl.2.1)]

/-! ## Changes at the top -/

/-- **What the files have in common is preceded by chunks of one type**: by lines of one file
only, that is. -/
def OnlyAtTop (type : DiffChunkType) (chunks : List DiffChunk) : Prop :=
  let top := chunks.takeWhile DiffChunk.isChange
  top ≠ [] ∧ top ≠ chunks ∧ ∀ c ∈ top, c.type = type

instance (type : DiffChunkType) (chunks : List DiffChunk) : Decidable (OnlyAtTop type chunks) :=
  inferInstanceAs (Decidable (_ ∧ _ ∧ _))

/-- A stretch is empty on the left if it has only chunks on the right. -/
theorem Stretch.left_eq_iff (h : Stretch root l r chunks l' r') :
    l = l' ↔ ∀ c ∈ chunks, c.type = .plus := by
  induction chunks generalizing l r with
  | nil => exact ⟨fun _ c hc => absurd hc List.not_mem_nil, fun _ => (Stretch.nil_iff.mp h).1⟩
  | cons c chunks ih =>
    obtain ⟨rfl, rfl, hc, h⟩ := Stretch.cons_iff.mp h
    have hle := h.le.1
    rw [List.forall_mem_cons, ← ih h, hc.type_eq_plus_iff]
    rw [DiffChunk.leftEnd] at hle ⊢
    omega

/-- A stretch takes up nothing of the right file exactly when it only removes. -/
theorem Stretch.right_eq_iff (h : Stretch root l r chunks l' r') :
    r = r' ↔ ∀ c ∈ chunks, c.type = .minus := by
  induction chunks generalizing l r with
  | nil => exact ⟨fun _ c hc => absurd hc List.not_mem_nil, fun _ => (Stretch.nil_iff.mp h).2⟩
  | cons c chunks ih =>
    obtain ⟨rfl, rfl, hc, h⟩ := Stretch.cons_iff.mp h
    have hle := h.le.2.1
    rw [List.forall_mem_cons, ← ih h, hc.type_eq_minus_iff]
    rw [DiffChunk.rightEnd] at hle ⊢
    omega

/-- A range before the first line of a file that is not empty. -/
def DiffRange.AtTop (range : DiffRange) (len : ℕ) : Prop := range = ⟨0, 0⟩ ∧ len ≠ 0

/-- What comes before the first chunk that is the same on both sides. -/
theorem takeWhile_isChange (hhunk : ∀ c ∈ chunks, c.isChange) {rest : List DiffChunk}
    (hrest : ∀ c ∈ rest.head?, c.isChange = false) :
    (chunks ++ rest).takeWhile DiffChunk.isChange = chunks := by
  rw [List.takeWhile_append_of_pos hhunk]
  cases rest with
  | nil => rw [List.takeWhile_nil, List.append_nil]
  | cons c rest => rw [List.takeWhile_cons_of_neg (by rw [hrest c rfl]; decide), List.append_nil]

/-- **An empty range before the first line** is one of lines that only the other file has. -/
theorem hunks_atTop_iff (h : Hunks root 0 i 0 0 chunks ccs)
    (hs : Stretch root 0 0 chunks root.left.length root.right.length) :
    ((∃ cc ∈ ccs, cc.left.AtTop root.left.length) ↔ OnlyAtTop .plus chunks)
      ∧ ((∃ cc ∈ ccs, cc.right.AtTop root.right.length) ↔ OnlyAtTop .minus chunks) := by
  cases h with
  | nil =>
    refine ⟨⟨?_, fun h => absurd rfl h.1⟩, ?_, fun h => absurd rfl h.1⟩
    · rintro ⟨cc, hcc, -⟩
      cases hcc
    · rintro ⟨cc, hcc, -⟩
      cases hcc
  | @same _ _ _ c chunks ccs hc h =>
    -- no context is at the top, as the first lines are the same
    obtain ⟨hl, hr, hgood, hs⟩ := Stretch.cons_iff.mp hs
    have hcount := hgood.same_of_not_isChange hc
    have htop : (c :: chunks).takeWhile DiffChunk.isChange = [] :=
      List.takeWhile_cons_of_neg (by rw [hc]; decide)
    have hpos : ∀ cc ∈ ccs, cc.left.start ≠ 0 ∧ cc.right.start ≠ 0 := by
      intro cc hcc
      obtain ⟨_, _, _, _, _, _, -, hle, hle', -, -, rfl⟩ := h.mem hs hcc
      rw [DiffChunk.leftEnd] at hle
      rw [DiffChunk.rightEnd] at hle'
      dsimp only [stretchContext]
      omega
    refine ⟨⟨?_, fun h => absurd htop h.1⟩, ?_, fun h => absurd htop h.1⟩
    · rintro ⟨cc, hcc, heq, -⟩
      exact absurd (congrArg DiffRange.start heq) (hpos cc hcc).1
    · rintro ⟨cc, hcc, heq, -⟩
      exact absurd (congrArg DiffRange.start heq) (hpos cc hcc).2
  | @hunk _ _ _ l' r' hunk rest ccs hhunk hapart h =>
    obtain ⟨l', r', hs', hs⟩ := Stretch.append_iff.mp hs
    obtain ⟨rfl, rfl⟩ := hs'.unique hhunk.stretch
    have hle := hs.le
    have hsame := h.head_same hapart hle.1
    have hne : hunk ≠ [] := by
      rintro rfl
      obtain ⟨c, hc, -⟩ := hhunk.first
      cases hc
    -- behind the hunk there are lines of either file, or nothing
    have hrest : rest ≠ [] → root.left.length ≠ 0 ∧ root.right.length ≠ 0 := by
      intro hne
      obtain ⟨c, rest, rfl⟩ := List.exists_cons_of_ne_nil hne
      obtain ⟨rfl, rfl, hgood, hs⟩ := Stretch.cons_iff.mp hs
      have hcount := hgood.same_of_not_isChange (hsame c rfl)
      have hle := hs.le
      rw [DiffChunk.leftEnd, DiffChunk.rightEnd] at hle
      omega
    have hnil : rest = [] → l' = root.left.length ∧ r' = root.right.length := by
      rintro rfl
      exact Stretch.nil_iff.mp hs
    have htop : ∀ type, OnlyAtTop type (hunk ++ rest) ↔ rest ≠ [] ∧ ∀ c ∈ hunk, c.type = type := by
      intro type
      show _ ≠ [] ∧ _ ≠ _ ∧ _ ↔ _
      rw [takeWhile_isChange (hhunk.changes rfl) hsame]
      have happend : hunk ≠ hunk ++ rest ↔ rest ≠ [] := by
        rw [ne_eq, List.self_eq_append_right]
      rw [happend]
      exact ⟨fun h => h.2, fun h => ⟨hne, h⟩⟩
    have hmem : ∀ cc ∈ stretchContext root 0 i hunk.length 0 0 l' r' :: ccs,
        (cc.left = ⟨0, 0⟩ → l' = 0) ∧ (cc.right = ⟨0, 0⟩ → r' = 0) := by
      intro cc hcc
      rcases List.mem_cons.mp hcc with rfl | hcc
      · dsimp only [stretchContext]
        refine ⟨fun h => ?_, fun h => ?_⟩
        · have := congrArg DiffRange.end_ h
          dsimp only at this
          omega
        · have := congrArg DiffRange.end_ h
          dsimp only at this
          omega
      · obtain ⟨_, _, _, _, _, _, -, hle, hle', -, -, rfl⟩ := h.mem hs hcc
        dsimp only [stretchContext]
        refine ⟨fun h => ?_, fun h => ?_⟩
        · have := congrArg DiffRange.start h
          dsimp only at this
          omega
        · have := congrArg DiffRange.start h
          dsimp only at this
          omega
    rw [htop, htop, ← hs'.left_eq_iff, ← hs'.right_eq_iff]
    refine ⟨⟨?_, ?_⟩, ?_, ?_⟩
    · rintro ⟨cc, hcc, heq, hlen⟩
      have hzero := (hmem cc hcc).1 heq
      exact ⟨fun hnil' => hlen ((hnil hnil').1 ▸ hzero), hzero.symm⟩
    · rintro ⟨hne, rfl⟩
      refine ⟨_, List.mem_cons_self, ?_, (hrest hne).1⟩
      simp [stretchContext]
    · rintro ⟨cc, hcc, heq, hlen⟩
      have hzero := (hmem cc hcc).2 heq
      exact ⟨fun hnil' => hlen ((hnil hnil').2 ▸ hzero), hzero.symm⟩
    · rintro ⟨hne, rfl⟩
      refine ⟨_, List.mem_cons_self, ?_, (hrest hne).2⟩
      simp [stretchContext]

/-! ## Where a script is what it says -/

/-- **The lines with these numbers are these atoms**: they are there, and they begin and end where
the atoms do. -/
structure LineRange.Denotes (lines : LineRange) (data : Bytes) (range : DiffRange) : Prop where
  inFile : lines.to_ ≤ (textLines data).length + 1
  from_ : lineOffset (textLines data) (lines.from_ - 1) = lineOffset (atomLines data) range.start
  to_ : lineOffset (textLines data) (lines.to_ - 1) = lineOffset (atomLines data) range.end_

/-- A range is read as it is, unless it is before the first line. -/
theorem readRange_eq_iff {len : ℕ} (h : range.Within len) :
    readRange range len = ⟨range.start + 1, range.end_ + 1⟩ ↔ ¬range.AtTop len := by
  obtain ⟨hstart, hend⟩ := h
  obtain ⟨a, b⟩ := range
  unfold readRange lineNumber DiffRange.AtTop
  dsimp only at hstart hend ⊢
  split
  · next hempty =>
    rw [LineRange.mk.injEq, DiffRange.mk.injEq]
    split
    · omega
    · split <;> omega
  · next hempty =>
    rw [DiffRange.mk.injEq]
    exact iff_of_true rfl (by omega)

/-- **The numbers that are read for a range** are right unless it is before the first line, or a
carriage return does harm. -/
theorem denotes_readRange_iff (h : range.Within (atomLines data).length) :
    (readRange range (atomLines data).length).Denotes data range
      ↔ ¬range.AtTop (atomLines data).length ∧ HarmlessReturns (textLines data) range.start
        ∧ HarmlessReturns (textLines data) range.end_ := by
  rw [← samePlace_iff (h.start_le.trans h.end_le), ← samePlace_iff h.end_le]
  have hread := readRange_eq_iff h
  have hle := h.start_le
  by_cases htop : range.AtTop (atomLines data).length
  · -- the number is that of a position behind the first line
    refine iff_of_false (fun hdenotes => ?_) fun h => h.1 htop
    have hread : readRange range (atomLines data).length = ⟨2, 2⟩ := by
      obtain ⟨rfl, hne⟩ := htop
      simp [readRange, lineNumber, hne]
    rw [hread] at hdenotes
    have hfrom := hdenotes.from_
    have hin := hdenotes.inFile
    rw [htop.1] at hfrom
    cases hlines : textLines data with
    | nil =>
      rw [hlines] at hin
      exact absurd hin (by decide)
    | cons line lines =>
      have hpos := List.length_pos_iff.mpr (ne_nil_of_mem_lines (hlines ▸ List.mem_cons_self))
      rw [hlines, lineOffset_zero] at hfrom
      simp only [Nat.add_one_sub_one, lineOffset_cons, lineOffset_zero] at hfrom
      omega
  · rw [hread.mpr htop, and_iff_right htop]
    constructor
    · rintro ⟨hin, hfrom, hto⟩
      dsimp only at hin hfrom hto
      rw [Nat.add_sub_cancel] at hfrom hto
      exact ⟨⟨by omega, hfrom⟩, by omega, hto⟩
    · rintro ⟨hfrom, hto⟩
      exact ⟨Nat.succ_le_succ hto.1, hfrom.2, hto.2⟩

/-- **The script of a diff does what the diff says**: the lines whose numbers are printed for a
change are those of the change, on either side, and with them the file on the right is made from the
one on the left. -/
structure EdScriptFaithful (left right : Bytes) (chunks : List DiffChunk) : Prop where
  numbers : List.Forall₂
    (fun change cc => change.old.Denotes left cc.left ∧ change.new.Denotes right cc.right)
    (readin (diffOutputEdscript (textRoot left right) chunks))
    (diffChunkContexts (textRoot left right) 0 0 chunks none)
  applied : applyEdScript left right (diffOutputEdscript (textRoot left right) chunks) = some right

/-- The contexts of a sound script are ranges of lines. -/
theorem contexts_within (hs : Stretch root 0 0 chunks root.left.length root.right.length)
    (hcc : cc ∈ diffChunkContexts root 0 0 chunks none) :
    cc.left.Within root.left.length ∧ cc.right.Within root.right.length
      ∧ (cc.left.start < cc.left.end_ ∨ cc.right.start < cc.right.end_) := by
  obtain ⟨i, l, r, hunk, l', r', hhunk, -, -, hl, hr, rfl⟩ :=
    (diffChunkContexts_hunks hs).mem hs hcc
  have hle := hhunk.stretch.le
  have hne : hunk ≠ [] := by
    rintro rfl
    obtain ⟨c, hc, -⟩ := hhunk.first
    nomatch hc
  have hlt := hle.2.2 hne
  simp only [stretchContext, Nat.sub_zero, Nat.add_zero, min_eq_right hl, min_eq_right hr]
  exact ⟨⟨hle.1, hl⟩, ⟨hle.2.1, hr⟩, hlt⟩

/-- **Carriage returns do no harm to a change**, on either side, where it begins and where it
ends. -/
structure Unharmed (left right : Bytes) (cc : DiffChunkContext) : Prop where
  leftStart : HarmlessReturns (textLines left) cc.left.start
  leftEnd : HarmlessReturns (textLines left) cc.left.end_
  rightStart : HarmlessReturns (textLines right) cc.right.start
  rightEnd : HarmlessReturns (textLines right) cc.right.end_

theorem unharmed_iff {cc : DiffChunkContext} : Unharmed left right cc ↔
    (HarmlessReturns (textLines left) cc.left.start
        ∧ HarmlessReturns (textLines left) cc.left.end_)
      ∧ HarmlessReturns (textLines right) cc.right.start
        ∧ HarmlessReturns (textLines right) cc.right.end_ :=
  ⟨fun h => ⟨⟨h.leftStart, h.leftEnd⟩, h.rightStart, h.rightEnd⟩,
    fun h => ⟨h.1.1, h.1.2, h.2.1, h.2.2⟩⟩

instance (left right : Bytes) (cc : DiffChunkContext) : Decidable (Unharmed left right cc) :=
  decidable_of_iff _ unharmed_iff.symm

/-- **The numbers are right** unless there are lines of one file only at the top, or carriage
returns do harm. -/
theorem numbers_iff (hs : Stretch (textRoot left right) 0 0 chunks
      (textRoot left right).left.length (textRoot left right).right.length) :
    List.Forall₂
        (fun change cc => change.old.Denotes left cc.left ∧ change.new.Denotes right cc.right)
        (readin (diffOutputEdscript (textRoot left right) chunks))
        (diffChunkContexts (textRoot left right) 0 0 chunks none)
      ↔ (¬OnlyAtTop .plus chunks ∧ ¬OnlyAtTop .minus chunks)
        ∧ ∀ cc ∈ diffChunkContexts (textRoot left right) 0 0 chunks none,
          Unharmed left right cc := by
  obtain ⟨hplus, hminus⟩ := hunks_atTop_iff (diffChunkContexts_hunks hs) hs
  rw [readin_diffOutputEdscript, List.forall₂_map_left_iff, List.forall₂_same, ← hplus, ← hminus,
    not_exists, not_exists, ← forall_and, ← forall_and]
  refine forall_congr' fun cc => ?_
  rw [not_and, not_and, ← imp_and, ← imp_and]
  refine forall_congr' fun hcc => ?_
  obtain ⟨hl, hr, hne⟩ := contexts_within hs hcc
  rw [readChange_outputEdscriptChunk hl hr hne, unharmed_iff]
  rw [length_left] at hl ⊢
  rw [length_right] at hr ⊢
  rw [denotes_readRange_iff hl, denotes_readRange_iff hr]
  exact and_and_and_comm

/-- **The script of a diff does what the diff says** if and only if carriage returns do no harm to
its changes, and the lines that the files have in common are not preceded by lines of one file
only. -/
theorem edScriptFaithful_iff (h : SoundScript (textRoot left right) chunks
      (textRoot left right).left.length (textRoot left right).right.length) :
    EdScriptFaithful left right chunks
      ↔ (¬OnlyAtTop .plus chunks ∧ ¬OnlyAtTop .minus chunks)
        ∧ ∀ cc ∈ diffChunkContexts (textRoot left right) 0 0 chunks none,
          Unharmed left right cc := by
  refine ⟨fun hfaithful => (numbers_iff h.stretch).mp hfaithful.numbers, fun hcond =>
    ⟨(numbers_iff h.stretch).mpr hcond, ?_⟩⟩
  obtain ⟨⟨hplus, hminus⟩, hunharmed⟩ := hcond
  obtain ⟨htop, htop'⟩ := hunks_atTop_iff (diffChunkContexts_hunks h.stretch) h.stretch
  rw [← htop, not_exists] at hplus
  rw [← htop', not_exists] at hminus
  have hread : readin (diffOutputEdscript (textRoot left right) chunks)
      = (diffChunkContexts (textRoot left right) 0 0 chunks none).map changeOf := by
    rw [readin_diffOutputEdscript, List.map_inj_left]
    intro cc hcc
    obtain ⟨hl, hr, hne⟩ := contexts_within h.stretch hcc
    rw [readChange_outputEdscriptChunk hl hr hne, changeOf,
      (readRange_eq_iff hl).mpr fun h => hplus cc ⟨hcc, h⟩,
      (readRange_eq_iff hr).mpr fun h => hminus cc ⟨hcc, h⟩]
  have hplace : ∀ cc ∈ diffChunkContexts (textRoot left right) 0 0 chunks none,
      (SamePlace left cc.left.start ∧ SamePlace left cc.left.end_)
        ∧ SamePlace right cc.right.start ∧ SamePlace right cc.right.end_ := by
    intro cc hcc
    obtain ⟨hl, hr, -⟩ := contexts_within h.stretch hcc
    rw [length_left] at hl
    rw [length_right] at hr
    rw [samePlace_iff (hl.start_le.trans hl.end_le), samePlace_iff hl.end_le,
      samePlace_iff (hr.start_le.trans hr.end_le), samePlace_iff hr.end_le]
    exact unharmed_iff.mp (hunharmed cc hcc)
  obtain ⟨file, hfile, hkept⟩ :=
    patchAll_hunks (diffChunkContexts_hunks h.stretch) h.stretch hplace
  obtain ⟨-, -, hdrop⟩ := hkept 0 le_rfl (.zero left)
  rw [applyEdScript, hread, rcsSplitlines_eq, hfile, Option.map_some]
  rw [List.drop_zero, bytesBetween, Nat.sub_self, List.take_zero, List.nil_append, lineOffset_zero,
    List.drop_zero] at hdrop
  rw [hdrop]

/-- There may be a carriage return behind the last change. -/
theorem edScriptFaithful_iff_change :
    EdScriptFaithful "x\na\rb\n".toUTF8.toList "y\nz\na\rb\n".toUTF8.toList
      (gotDiffreg (textRoot "x\na\rb\n".toUTF8.toList "y\nz\na\rb\n".toUTF8.toList)) :=
  (edScriptFaithful_iff (diffMainPatience_sound _)).mpr (by decide +kernel)

/-- With carriage returns a line is lost, and lines that are put in at the top of a file come to
be behind its first line. -/
theorem edScript_not_faithful :
    (applyEdScript "a\rb\nc\n".toUTF8.toList "a\rx\nc\n".toUTF8.toList
        (diffreg "a\rb\nc\n".toUTF8.toList "a\rx\nc\n".toUTF8.toList)
      = some "a\rb\nc\n".toUTF8.toList
      ∧ ¬EdScriptFaithful "a\rb\nc\n".toUTF8.toList "a\rx\nc\n".toUTF8.toList
        (gotDiffreg (textRoot "a\rb\nc\n".toUTF8.toList "a\rx\nc\n".toUTF8.toList)))
    ∧ applyEdScript "b\nc\n".toUTF8.toList "x\nb\nc\n".toUTF8.toList
        (diffreg "b\nc\n".toUTF8.toList "x\nb\nc\n".toUTF8.toList)
      = some "b\nx\nc\n".toUTF8.toList := by
  refine ⟨⟨by decide +kernel, fun h => ?_⟩, by decide +kernel⟩
  have happlied := h.applied
  revert happlied
  decide +kernel

end Got

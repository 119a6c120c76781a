import Got.Diff.AtomOrder
import Got.Diff.EdScript

/-!
# The diff of a file with itself

Whatever algorithm is used, all it ever makes of a file and itself are chunks that say that a
range of atoms is the same as itself (`DiffChunk.Diagonal`), and what it leaves unsolved is a
part of the file and the same part. So in the end there is no change, and nothing is printed
(`diffreg_self`).

Nothing is to be found for most of the algorithms, which slide along the main diagonal of the
graph from one end to the other. Patience diff has to find the one atom on the other side that
an atom is the same as, and for that what it sorts has to be sorted.
-/

namespace Got

open EditGraph

variable {root : DiffRoot} {c : DiffChunk} {result chunks : List DiffChunk} {state : DiffState}
  {n : ℕ}

/-! ## Chunks on the diagonal -/

/-- **A chunk of a range and itself.** -/
structure DiffChunk.Diagonal (c : DiffChunk) : Prop where
  start : c.leftStart = c.rightStart
  count : c.leftCount = c.rightCount

/-- There is no change in it. -/
theorem DiffChunk.Diagonal.isChange (h : c.Diagonal) : c.isChange = false := by
  rw [DiffChunk.isChange, decide_eq_false_iff_not, DiffChunk.type, h.count]
  split
  · exact fun h => h.elim (fun h => (by cases h)) fun h => (by cases h)
  rename_i hne
  split
  · exact fun h => h.elim (fun h => (by cases h)) fun h => (by cases h)
  rw [if_neg fun h => hne ⟨h, h⟩, if_neg fun h => hne ⟨h, h⟩, if_neg fun h => h rfl]
  exact fun h => h.elim (fun h => (by cases h)) fun h => (by cases h)

/-- Solved chunks stay on the diagonal when one more is added. -/
theorem DiffChunk.Diagonal.addSolved (hresult : ∀ c ∈ result, c.Diagonal) (hc : c.Diagonal) :
    ∀ c' ∈ diffStateAddSolvedChunk result c, c'.Diagonal := by
  unfold diffStateAddSolvedChunk
  cases result with
  | nil => exact fun c' hc' => List.mem_singleton.mp hc' ▸ hc
  | cons last rest =>
    obtain ⟨hlast, hrest⟩ := List.forall_mem_cons.mp hresult
    dsimp only
    split
    · refine List.forall_mem_cons.mpr ⟨⟨hlast.start, ?_⟩, hrest⟩
      exact congrArg₂ (· + ·) hlast.count hc.count
    rw [if_neg]
    · exact List.forall_mem_cons.mpr ⟨hc, hresult⟩
    · rintro ⟨hplus, -⟩
      have h := hlast.isChange
      rw [DiffChunk.isChange, decide_eq_false_iff_not] at h
      exact h (Or.inr hplus)

/-- **A state of which all chunks are on the diagonal**, and what waits is a part of the
file. -/
structure DiffState.Diagonal (n : ℕ) (state : DiffState) : Prop where
  result : ∀ c ∈ state.result, c.Diagonal
  temp : ∀ c ∈ state.tempResult, c.Diagonal ∧ c.leftEnd ≤ n

/-- A state stays on the diagonal when a chunk of it is added. -/
theorem DiffState.Diagonal.add (h : state.Diagonal n) (hc : c.Diagonal) (hend : c.leftEnd ≤ n) :
    (diffStateAddChunk state c).Diagonal n := by
  unfold diffStateAddChunk
  split
  · refine ⟨h.result, fun c' hc' => ?_⟩
    rcases List.mem_append.mp hc' with hc' | hc'
    · exact h.temp c' hc'
    · exact List.mem_singleton.mp hc' ▸ ⟨hc, hend⟩
  · exact ⟨hc.addSolved h.result, h.temp⟩

/-- A chunk that may be added, if it is on the diagonal, keeps the state there. -/
theorem DiffState.Diagonal.addIf (h : state.Diagonal n) {p : Prop} [Decidable p]
    (hc : c.Diagonal) (hend : c.leftEnd ≤ n) :
    (if p then diffStateAddChunk state c else state).Diagonal n := by
  split
  · exact h.add hc hend
  · exact h

/-- A section of the same length on both sides keeps the state on the diagonal. -/
theorem DiffState.Diagonal.addSection {l len : ℕ} (h : state.Diagonal n) (hend : l + len ≤ n) :
    (diffStateAddSection state l len l len).Diagonal n := by
  unfold diffStateAddSection
  split
  · exact h.add ⟨rfl, rfl⟩ hend
  rename_i hzero
  rw [and_self] at hzero
  rw [if_neg hzero, if_neg hzero]
  exact h

/-! ## One algorithm -/

/-- **A part of a file and the same part** are to be compared. -/
structure DiffState.SamePart (root : DiffRoot) (state : DiffState) : Prop where
  files : root.left = root.right
  parts : state.left = state.right
  within : state.left.start + state.left.len ≤ root.left.length

theorem DiffRoot.same_self (h : root.left = root.right) {i : ℕ} (hi : i < root.left.length) :
    root.same i i = true := by
  rw [DiffRoot.same, ← h, List.getElem?_eq_getElem hi]
  exact diffAtomSame_iff_key.mpr rfl

section Algorithms

variable (hs : state.SamePart root) (h : state.Diagonal root.left.length)

include hs

/-- The same atom on either side is the same. -/
theorem DiffState.SamePart.same {x : ℤ} (hlt : x < state.left.len) (hpos : 0 < state.left.len) :
    state.same root x x = true := by
  obtain ⟨hfiles, hparts, hwithin⟩ := hs
  rw [DiffState.same, ← hparts]
  exact DiffRoot.same_self hfiles (by omega)

/-- A file compared with itself is equal up to its end. -/
theorem equalAtomsStart_self {fuel : ℕ} {i : ℕ} (hi : i ≤ state.left.len)
    (hfuel : state.left.len ≤ i + fuel) :
    equalAtomsStart root state.left state.right fuel i = state.left.len := by
  obtain ⟨hfiles, hparts, hwithin⟩ := hs
  rw [← hparts]
  induction fuel generalizing i with
  | zero => exact le_antisymm hi hfuel
  | succ fuel ih =>
    rw [equalAtomsStart]
    split
    · exact ih (by omega) (by omega)
    · rename_i hnot
      by_contra hne
      exact hnot ⟨by omega, by omega, DiffRoot.same_self hfiles (by omega)⟩

/-- One gets to the end at once. -/
theorem slide_self (hpos : 0 < state.left.len) :
    slide (state.same root) state.left.len state.left.len 0 0 = state.left.len := by
  have hin := slide_in (state.same root) state.left.len state.left.len 0 0
  have hmax := slide_max (state.same root) state.left.len state.left.len 0 0
  have hle := slide_le (state.same root) state.left.len state.left.len 0 0
  generalize slide (state.same root) state.left.len state.left.len 0 0 = x at hin hmax hle ⊢
  by_contra hne
  refine hmax ⟨by omega, by omega, ?_⟩
  rw [sub_zero]
  exact hs.same (by omega) hpos

include h

/-- **Equal files, no algorithm.** The common start takes up both files, so that every chunk is on
the diagonal. -/
theorem diffAlgoNone_diagonal :
    ∃ state', diffAlgoNone root state = (.ok, state') ∧ state'.Diagonal root.left.length := by
  have hstart : equalAtomsStart root state.left state.right state.left.len 0 = state.left.len :=
    equalAtomsStart_self hs (Nat.zero_le _) (Nat.zero_add _).ge
  have hend : equalAtomsEnd root state.left state.right state.left.len state.left.len 0 = 0 := by
    have hzero : ∀ fuel, equalAtomsEnd root state.left state.right state.left.len fuel 0 = 0 := by
      intro fuel
      cases fuel with
      | zero => rfl
      | succ fuel => rw [equalAtomsEnd, Nat.sub_self, if_neg (fun h => absurd h.1 (lt_irrefl _))]
    exact hzero _
  obtain ⟨hfiles, hparts, hwithin⟩ := hs
  unfold diffAlgoNone
  dsimp only
  rw [hstart, hend, ← hparts, Nat.sub_self, Nat.sub_zero, if_neg (not_not.mpr rfl),
    if_neg (not_not.mpr rfl), if_neg (not_not.mpr rfl)]
  exact ⟨_, rfl, h.addIf ⟨rfl, rfl⟩ hwithin⟩

omit hs h in
/-- The way along the diagonal is one chunk. -/
theorem myersAddTrack_diagonal (state : DiffState) {len : ℕ} (hpos : 0 < len) :
    myersAddTrack state 0 0 len len
      = some (diffStateAddChunk state ⟨true, state.left.start, len, state.right.start, len⟩) := by
  have hne : (len : ℤ) - 0 ≠ 0 := by omega
  have hone : ¬((len : ℤ) - 0 = len - 0 + 1) := by omega
  unfold myersAddTrack
  dsimp only
  rw [if_pos ⟨hne, hne⟩, if_neg hone, if_neg hone, if_neg (not_not.mpr rfl), sub_zero,
    Int.toNat_zero, Int.toNat_natCast, Nat.add_zero, Nat.add_zero]

/-- What is found is one chunk of everything. -/
theorem diffAlgoMyers_diagonal (hpos : 0 < state.left.len) (permittedStateSize : ℕ) :
    diffAlgoMyers root permittedStateSize state = (.useDiffAlgoFallback, state)
      ∨ ∃ state', diffAlgoMyers root permittedStateSize state = (.ok, state')
        ∧ state'.Diagonal root.left.length := by
  unfold diffAlgoMyers
  dsimp only
  split
  · exact Or.inl rfl
  refine Or.inr ?_
  have hreach : reach (state.same root) state.left.len state.left.len 0
      (state.left.len - state.left.len) = state.left.len := by
    rw [sub_self, reach_zero]
    exact slide_self hs hpos
  have hfuel : 0 < 0 + (state.left.len + state.left.len + 1) := by
    omega
  obtain ⟨col, hcol, hcols⟩ := myersColumns_spec (Int.natCast_nonneg _) (Int.natCast_nonneg _)
    hreach (fun e he => absurd he (Nat.not_lt_zero e)) le_rfl hfuel
  rw [sub_self] at hcol hcols
  replace hcols : myersColumns (state.same root) state.left.len state.left.len
      (state.left.len + state.left.len + 1) 0 [] = (some 0, [col]) := hcols
  rw [← hs.parts, hcols]
  show ∃ state', myersForward state 0 0 [(col 0, col 0 - 0)] = (.ok, state') ∧ _
  rw [hcol, sub_zero, myersForward, myersAddTrack_diagonal state hpos, ← hs.parts]
  exact ⟨_, rfl, h.add ⟨rfl, rfl⟩ hs.within⟩

omit h in
/-- From the end one gets to the start. -/
theorem slideUp_self (hpos : 0 < state.left.len) :
    slideUp (state.same root) 0 0 state.left.len = 0 := by
  have hin := slideUp_in (state.same root) 0 0 state.left.len
  have hmax := slideUp_max (state.same root) 0 0 state.left.len
  have hle := slideUp_le (state.same root) 0 0 state.left.len
  generalize slideUp (state.same root) 0 0 state.left.len = x at hin hmax hle ⊢
  by_contra hne
  refine hmax ⟨by omega, by omega, ?_⟩
  rw [sub_zero, add_zero]
  exact hs.same (by omega) hpos

omit h in
/-- The two walks meet at once, when the second one has gone all the way. -/
theorem divideMidpoint_self (hpos : 0 < state.left.len) (maxEffort fuel : ℕ) :
    divideMidpoint (state.same root) state.left.len state.left.len maxEffort (fuel + 1) 0
      (fun _ => -1) (fun _ => -1) = some ⟨0, state.left.len, 0, state.left.len⟩ := by
  have hslide := slide_self hs hpos
  have hslideUp := slideUp_self hs hpos
  have hlen : (0 : ℤ) < state.left.len := by exact_mod_cast hpos
  generalize (state.left.len : ℤ) = m at hslide hslideUp hlen ⊢
  have hin : ¬((0 : ℤ) < -m ∨ (0 : ℤ) > m) := by omega
  have hforward : diffDivideMyersForward (state.same root) m m (fun _ => -1) 0 [0] (fun _ => -1)
      = (none, Function.update (fun _ => -1) 0 m) := by
    have hmeets : forwardMeets m m (fun _ => -1) 0 0 0 (0 - 0) 0 m = none := by
      unfold forwardMeets
      rw [if_neg (by omega), if_pos (by omega)]
    rw [diffDivideMyersForward, if_neg hin, forwardStep, if_pos rfl]
    dsimp only
    rw [hslide, hmeets]
    rfl
  have hbackward (kdForward : Column) (hmeet : kdForward 0 = m) :
      diffDivideMyersBackward (state.same root) m m kdForward 0 [0] (fun _ => -1)
        = (some ⟨0, m, 0, m⟩, Function.update (fun _ => -1) 0 0) := by
    have hmeets : backwardMeets m m kdForward 0 0 m (m - 0 + 0) m 0 = some ⟨0, m, 0, m⟩ := by
      unfold backwardMeets
      rw [sub_self, if_neg (by omega), if_neg (by omega), sub_self, hmeet,
        if_pos ⟨by decide, by decide, hlen.le⟩, if_pos hlen.ne', add_zero, sub_zero]
    rw [diffDivideMyersBackward, if_neg hin, backwardStep, if_pos rfl]
    dsimp only
    rw [sub_self, hslideUp, hmeets]
  rw [divideMidpoint, show diagonals 0 = [0] from rfl, hforward]
  dsimp only
  rw [hbackward _ (Function.update_self _ _ _)]

/-- The middle is everything, and nothing lies before it or behind it. -/
theorem diffAlgoMyersDivide_diagonal (hpos : 0 < state.left.len) :
    ∃ state', diffAlgoMyersDivide root state = (.ok, state')
      ∧ state'.Diagonal root.left.length := by
  unfold diffAlgoMyersDivide
  dsimp only
  rw [← hs.parts, divideMidpoint_self hs hpos]
  dsimp only
  rw [Int.toNat_zero, Int.toNat_natCast, Nat.sub_self]
  refine ⟨_, rfl, DiffState.Diagonal.addSection (DiffState.Diagonal.addIf ?_ ⟨rfl, rfl⟩ ?_)
    hs.within⟩
  · exact h.addSection (Nat.le_trans (Nat.le_add_right _ _) hs.within)
  · exact hs.within

end Algorithms

/-! ## Patience -/

section Patience

variable {a b : PlacedAtom} {all atoms rest : List PlacedAtom} {patience : AtomPatience} {ig : Bool}

/-- The atom with the same index on the other side. -/
def PlacedAtom.twin (a : PlacedAtom) : PlacedAtom :=
  ⟨match a.side with | .left => .right | .right => .left, a.idx, a.atom⟩

theorem PlacedAtom.twin_side_ne (a : PlacedAtom) : a.twin.side ≠ a.side := by
  unfold twin
  cases a.side with
  | left => exact fun h => (nomatch h)
  | right => exact fun h => (nomatch h)

/-- The atoms of a file and itself come in twins. -/
theorem twin_mem_placedAtoms {atoms : List DiffAtom} {data : DiffData}
    (ha : a ∈ placedAtoms .left atoms data ++ placedAtoms .right atoms data) :
    a.twin ∈ placedAtoms .left atoms data ++ placedAtoms .right atoms data := by
  rcases List.mem_append.mp ha with ha | ha
  · obtain ⟨i, hi, rfl⟩ := List.mem_mapIdx.mp ha
    exact List.mem_append_right _ (List.mem_mapIdx.mpr ⟨i, hi, rfl⟩)
  · obtain ⟨i, hi, rfl⟩ := List.mem_mapIdx.mp ha
    exact List.mem_append_left _ (List.mem_mapIdx.mpr ⟨i, hi, rfl⟩)

/-- **Atoms are paired with their twins**, as far as is known. -/
def AtomPatience.OnDiagonal (patience : AtomPatience) : Prop :=
  ∀ i b, patience .left i = some b → b.idx = i

/-- Pairing an atom with the one at the same index keeps all pairs on the diagonal. -/
theorem AtomPatience.OnDiagonal.pair (h : patience.OnDiagonal) (hidx : a.idx = b.idx) :
    (patience.pair a b).OnDiagonal := by
  intro i c hc
  unfold AtomPatience.pair at hc
  split at hc
  · rename_i heq
    obtain rfl := Option.some.inj hc
    rw [heq.2, hidx]
  split at hc
  · rename_i heq
    obtain rfl := Option.some.inj hc
    rw [heq.2, hidx]
  · exact h i c hc

/-- **Two atoms that are alone are twins.** -/
theorem Unmarked.twins (h : Unmarked ig all (a :: rest)) (htwin : ∀ a ∈ all, a.twin ∈ all)
    (hrun : sameRun ig a rest = [b]) : b.idx = a.idx := by
  have hmem := h.closed a List.mem_cons_self a.twin (htwin a (h.mem a List.mem_cons_self))
    (diffAtomSame_iff_key.mpr rfl)
  rcases List.mem_cons.mp hmem with heq | hmem
  · exact absurd (congrArg PlacedAtom.side heq) a.twin_side_ne
  have hbehind := (sameRun_spec h.sorted).2
  rw [← sameRun_append_drop ig a rest] at hmem
  rcases List.mem_append.mp hmem with hmem | hmem
  · rw [hrun] at hmem
    rw [← List.mem_singleton.mp hmem]
    rfl
  · have hsame : diffAtomSame ig a.atom a.twin.atom = true := diffAtomSame_iff_key.mpr rfl
    exact absurd hsame (Bool.eq_false_iff.mp (hbehind a.twin hmem))

/-- Marking what is unique in both files pairs each atom with its twin, when the twin is at the same
index. -/
theorem markUniqueLoop_onDiagonal {fuel count : ℕ} (hatoms : Unmarked ig all atoms)
    (htwin : ∀ a ∈ all, a.twin ∈ all) (h : patience.OnDiagonal) :
    (markUniqueLoop ig fuel atoms count patience).2.OnDiagonal := by
  induction fuel generalizing atoms count patience with
  | zero => exact h
  | succ fuel ih =>
    cases atoms with
    | nil => exact h
    | cons a rest =>
      cases rest with
      | nil => exact h
      | cons b rest =>
        rw [markUniqueLoop]
        dsimp only [List.head?_cons]
        split
        · rename_i hcounts
          obtain ⟨c, hrun, -⟩ := counts_iff.mp hcounts
          obtain rfl := (same_of_sameRun hrun).1
          exact ih hatoms.drop (h.pair (hatoms.twins htwin hrun).symm)
        · exact ih hatoms.drop h

/-- In a file compared with itself each unique atom is paired with itself. -/
theorem diffAtomsMarkUniqueInBoth_onDiagonal (hfiles : root.left = root.right) (data : DiffData) :
    (diffAtomsMarkUniqueInBoth root data data).2.OnDiagonal := by
  have hmem (a : PlacedAtom) (atoms : List PlacedAtom) :
      a ∈ diffAtomsSort root.ignoreWhitespace atoms ↔ a ∈ atoms := List.mem_insertionSort _
  unfold diffAtomsMarkUniqueInBoth
  rw [← hfiles]
  refine markUniqueLoop_onDiagonal ⟨pairwise_diffAtomsSort _ _, fun a ha => (hmem _ _).mp ha,
    fun _ _ c hc _ => (hmem _ _).mpr hc⟩ (fun a ha => twin_mem_placedAtoms ha)
    fun _ _ h => (nomatch h)

/-- The sections between atoms and their twins are parts of the file and the same parts. -/
theorem patienceSections_diagonal {data : DiffData} {lcs : List UniqueAtom} {pos : ℕ}
    (h : state.Diagonal n) (hwithin : data.start + data.len ≤ n) (hpos : pos ≤ data.len)
    (hlcs : ∀ a ∈ lcs, a.posInOther = a.idx ∧ a.idx < data.len) :
    (patienceSections data data pos pos lcs state).Diagonal n := by
  induction lcs generalizing pos state with
  | nil => exact h.addSection (by omega)
  | cons atom lcs ih =>
    obtain ⟨⟨hidx, hlt⟩, hlcs⟩ := List.forall_mem_cons.mp hlcs
    rw [patienceSections, hidx]
    refine ih (DiffState.Diagonal.add (h.addSection (by omega)) ⟨rfl, rfl⟩ ?_) hlt hlcs
    show data.start + atom.idx + 1 ≤ n
    omega

/-- **Equal files, Patience.** It either falls back or leaves all chunks on the diagonal. -/
theorem diffAlgoPatience_diagonal (hs : state.SamePart root) (h : state.Diagonal root.left.length) :
    diffAlgoPatience root state = (.useDiffAlgoFallback, state)
      ∨ ∃ state', diffAlgoPatience root state = (.ok, state')
        ∧ state'.Diagonal root.left.length := by
  unfold diffAlgoPatience
  rw [← hs.parts]
  have hdiag := diffAtomsMarkUniqueInBoth_onDiagonal hs.files state.left
  have hpaired := diffAtomsMarkUniqueInBoth_paired root state.left state.left
  cases hmark : diffAtomsMarkUniqueInBoth root state.left state.left with
  | mk count patience =>
    rw [hmark] at hdiag hpaired
    dsimp only at hdiag hpaired ⊢
    split
    · exact Or.inl rfl
    refine Or.inr ⟨_, rfl, patienceSections_diagonal h hs.within (Nat.zero_le _) ?_⟩
    refine (patienceLcs_spec (fun a ha => ?_) (uniqueAtoms_spec hpaired).2).2
    obtain ⟨i, hi, ha⟩ := List.mem_filterMap.mp ha
    obtain ⟨b, hb, rfl⟩ := Option.map_eq_some_iff.mp ha
    exact ⟨hdiag i b hb, List.mem_range.mp hi⟩

end Patience

/-! ## Any run -/

/-- **Any algorithm** stays on the diagonal. -/
theorem DiffAlgoImpl.run_diagonal (impl : DiffAlgoImpl) (permittedStateSize : ℕ)
    (hs : state.SamePart root) (h : state.Diagonal root.left.length) (hpos : 0 < state.left.len) :
    impl.run root permittedStateSize state = (.useDiffAlgoFallback, state)
      ∨ ∃ state', impl.run root permittedStateSize state = (.ok, state')
        ∧ state'.Diagonal root.left.length := by
  cases impl with
  | none => exact Or.inr (diffAlgoNone_diagonal hs h)
  | myers => exact diffAlgoMyers_diagonal hs h hpos permittedStateSize
  | myersDivide => exact Or.inr (diffAlgoMyersDivide_diagonal hs h hpos)
  | patience => exact diffAlgoPatience_diagonal hs h

section Runs

variable {ι : Type} {configs : ι → DiffAlgoConfig ι} {algo : Option ι} {fuel : ℕ}
  {out : DiffRc × List DiffChunk}

/-- The chunks that wait are solved one by one, each a part of the file and the same part. -/
theorem solveTempResult_diagonal {runInner : DiffState → Option (DiffRc × List DiffChunk)}
    {depth : ℕ} (hfiles : root.left = root.right)
    (hinner : ∀ state out, state.SamePart root → state.Diagonal root.left.length →
      runInner state = some out → ∀ c ∈ out.2, c.Diagonal)
    (hresult : ∀ c ∈ result, c.Diagonal)
    (hchunks : ∀ c ∈ chunks, c.Diagonal ∧ c.leftEnd ≤ root.left.length)
    (h : solveTempResult runInner depth chunks result = some out) : ∀ c ∈ out.2, c.Diagonal := by
  induction chunks generalizing result with
  | nil =>
    obtain rfl := Option.some.inj h
    exact hresult
  | cons c chunks ih =>
    obtain ⟨⟨hc, hend⟩, hchunks⟩ := List.forall_mem_cons.mp hchunks
    rw [solveTempResult] at h
    split at h
    · exact ih (hc.addSolved hresult) hchunks h
    have hpart : DiffState.SamePart root ⟨result, [], ⟨c.leftStart, c.leftCount⟩,
        ⟨c.rightStart, c.rightCount⟩, depth - 1⟩ :=
      ⟨hfiles, by rw [hc.start, hc.count], hend⟩
    have hdiag : DiffState.Diagonal root.left.length ⟨result, [], ⟨c.leftStart, c.leftCount⟩,
        ⟨c.rightStart, c.rightCount⟩, depth - 1⟩ :=
      ⟨hresult, fun c hc => absurd hc List.not_mem_nil⟩
    split at h
    · rename_i result' hres
      exact ih (hinner _ _ hpart hdiag hres) hchunks h
    · exact hinner _ _ hpart hdiag h

/-- **A run stays on the diagonal**, whatever the configuration is. -/
theorem diffRunAlgo_diagonal (hs : state.SamePart root) (h : state.Diagonal root.left.length)
    (hrun : diffRunAlgo root configs fuel algo state = some out) : ∀ c ∈ out.2, c.Diagonal := by
  induction fuel generalizing algo state out with
  | zero => exact nomatch hrun
  | succ fuel ih =>
    have hnone : ∀ {out}, (some ((diffAlgoNone root state).1, (diffAlgoNone root state).2.result)
        = some out) → ∀ c ∈ out.2, c.Diagonal := by
      intro out hout
      obtain ⟨state', heq, hdiag⟩ := diffAlgoNone_diagonal hs h
      rw [heq] at hout
      obtain rfl := Option.some.inj hout
      exact hdiag.result
    rw [diffRunAlgo] at hrun
    dsimp only at hrun
    split at hrun
    · rename_i config impl _
      split at hrun
      · exact hnone hrun
      rename_i hne
      have hs' : DiffState.SamePart root { state with tempResult := [] } :=
        ⟨hs.files, hs.parts, hs.within⟩
      have h' : DiffState.Diagonal root.left.length { state with tempResult := [] } :=
        ⟨h.result, fun c hc => absurd hc List.not_mem_nil⟩
      have hpos : 0 < state.left.len := Nat.pos_of_ne_zero fun h => hne (Or.inr (Or.inl h))
      rcases impl.run_diagonal config.permittedStateSize hs' h' hpos with
        heq | ⟨state', heq, hdiag⟩
      · rw [heq] at hrun
        exact ih hs' h' hrun
      · rw [heq] at hrun
        exact solveTempResult_diagonal hs.files (fun _ _ => ih) hdiag.result hdiag.temp hrun
    · exact hnone hrun

end Runs

/-- **The diff of a file with itself** has no change in it. -/
theorem diffMainPatience_self (hfiles : root.left = root.right) :
    ∀ c ∈ diffMainPatience root, c.isChange = false := by
  unfold diffMainPatience
  intro c hc
  split at hc
  · rename_i rc chunks hmain
    obtain ⟨out, hrun, heq⟩ := Option.map_eq_some_iff.mp hmain
    obtain ⟨-, rfl⟩ := Prod.mk.inj heq
    refine (@diffRunAlgo_diagonal root _ _ _ _ _ _ ⟨hfiles, ?_, ?_⟩ ⟨?_, ?_⟩ hrun c
      (List.mem_reverse.mp hc)).isChange
    · rw [hfiles]
    · exact (Nat.zero_add _).le
    · exact fun c hc => absurd hc List.not_mem_nil
    · exact fun c hc => absurd hc List.not_mem_nil
  · exact absurd hc List.not_mem_nil

/-- Where there is no change nothing is printed. -/
theorem diffChunkContexts_eq_nil (contextLines i : ℕ) (h : ∀ c ∈ chunks, c.isChange = false) :
    diffChunkContexts root contextLines i chunks none = [] := by
  induction chunks generalizing i with
  | nil => rfl
  | cons c chunks ih =>
    obtain ⟨hc, hchunks⟩ := List.forall_mem_cons.mp h
    rw [diffChunkContexts, if_pos (by rw [hc]; exact Bool.false_ne_true)]
    exact ih (i + 1) hchunks

/-- **Between a file and itself there is nothing to edit.** -/
theorem diffreg_self (text : Bytes) : diffreg text text = [] := by
  unfold diffreg diffOutputEdscript gotDiffreg
  dsimp only
  rw [diffChunkContexts_eq_nil 0 0 (diffMainPatience_self rfl), List.flatMap_nil]

end Got

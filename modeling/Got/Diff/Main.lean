import Got.Diff.Midpoint
import Got.Diff.Patience

/-!
# Running the algorithms

A configuration names an algorithm, another one for what it leaves unsolved, and
a third one if it gives up. These can be the same algorithm once more, so that
how far this goes on is limited by a depth. At the last, when there is nothing
else to be done, all atoms on the left are taken away and all atoms on the right
are added, but for those at the start and at the end that are the same.

The main result is `diffRunAlgo_sound`: whatever the configuration is, what comes
out is a sound script. It does not say that the run ends, which it need not: an
algorithm that gives up can be its own fallback. `diffRunAlgo_total` says that it
ends if the fallbacks do, because what an algorithm leaves unsolved gets smaller, and
`diffRunAlgo_terminates` that it does with the configurations that are used.
-/

namespace Got

/-! ## No algorithm -/

section None

variable (root : DiffRoot) (left right : DiffData)

/-- How many atoms at the start are the same, from the `n`th on. -/
def equalAtomsStart : ℕ → ℕ → ℕ
  | 0, n => n
  | fuel + 1, n =>
    if n < left.len ∧ n < right.len ∧ root.same (left.start + n) (right.start + n) then
      equalAtomsStart fuel (n + 1)
    else n

/-- How many atoms at the end are the same. -/
def equalAtomsEnd (start : ℕ) : ℕ → ℕ → ℕ
  | 0, n => n
  | fuel + 1, n =>
    if n < left.len - start ∧ n < right.len - start
        ∧ root.same (left.start + (left.len - 1 - n)) (right.start + (right.len - 1 - n)) then
      equalAtomsEnd start fuel (n + 1)
    else n

end None

/-- **`diff_algo_none`** -/
def diffAlgoNone (root : DiffRoot) (state : DiffState) : DiffRc × DiffState :=
  let left := state.left
  let right := state.right
  let l := left.start
  let r := right.start
  let equalStart := equalAtomsStart root left right left.len 0
  let equalEnd := equalAtomsEnd root left right equalStart left.len 0
  let minus := left.len - equalStart - equalEnd
  let plus := right.len - equalStart - equalEnd
  let state :=
    if equalStart ≠ 0 then diffStateAddChunk state ⟨true, l, equalStart, r, equalStart⟩ else state
  let state :=
    if minus ≠ 0 then
      diffStateAddChunk state ⟨true, l + equalStart, minus, r + equalStart, 0⟩
    else state
  let state :=
    if plus ≠ 0 then
      diffStateAddChunk state ⟨true, l + equalStart + minus, 0, r + equalStart, plus⟩
    else state
  let state :=
    if equalEnd ≠ 0 then
      diffStateAddChunk state
        ⟨true, l + equalStart + minus, equalEnd, r + equalStart + plus, equalEnd⟩
    else state
  (.ok, state)

/-! ## Configurations -/

/-- The algorithms there are. -/
inductive DiffAlgoImpl
  | none
  | myers
  | myersDivide
  | patience
  deriving DecidableEq

/-- The implementations an algorithm can name, run on a state. -/
def DiffAlgoImpl.run (root : DiffRoot) (permittedStateSize : ℕ) (state : DiffState) :
    DiffAlgoImpl → DiffRc × DiffState
  | .none => diffAlgoNone root state
  | .myers => diffAlgoMyers root permittedStateSize state
  | .myersDivide => diffAlgoMyersDivide root state
  | .patience => diffAlgoPatience root state

/-- **A configuration.** The others that it refers to have names. -/
structure DiffAlgoConfig (ι : Type) where
  impl : Option DiffAlgoImpl
  permittedStateSize : ℕ
  innerAlgo : Option ι
  fallbackAlgo : Option ι

/-- The names of the configurations that are used. -/
inductive DiffregAlgo
  | myersThenPatience
  | myersThenMyersDivide
  | patience
  | myersDivide
  deriving DecidableEq

/-- The configurations of `diffreg.c`: which algorithm each tries first and which it falls back on.
-/
def DiffregAlgo.config : DiffregAlgo → DiffAlgoConfig DiffregAlgo
  | myersThenPatience => ⟨some .myers, 1024 * 1024 * sizeofInt, none, some patience⟩
  | myersThenMyersDivide => ⟨some .myers, 1024 * 1024 * sizeofInt, none, some myersDivide⟩
  | patience => ⟨some .patience, 0, some patience, some myersThenMyersDivide⟩
  | myersDivide => ⟨some .myersDivide, 0, some myersThenMyersDivide, none⟩

/-- The loop over the chunks that wait. -/
def solveTempResult (runInner : DiffState → Option (DiffRc × List DiffChunk)) (depth : ℕ) :
    List DiffChunk → List DiffChunk → Option (DiffRc × List DiffChunk)
  | [], result => some (.ok, result)
  | c :: chunks, result =>
    if c.solved then
      solveTempResult runInner depth chunks (diffStateAddSolvedChunk result c)
    else
      match runInner ⟨result, [], ⟨c.leftStart, c.leftCount⟩, ⟨c.rightStart, c.rightCount⟩,
          depth - 1⟩ with
      | some (.ok, result) => solveTempResult runInner depth chunks result
      | rc => rc

variable {ι : Type}

/-- **`diff_run_algo`**, with its return code and the chunks. It does not end with
as many calls within each other as there is fuel, if there is no result. -/
def diffRunAlgo (root : DiffRoot) (configs : ι → DiffAlgoConfig ι) :
    ℕ → Option ι → DiffState → Option (DiffRc × List DiffChunk)
  | 0, _, _ => none
  | fuel + 1, algo, state =>
    let config := algo.map configs
    match config.bind (fun config => config.impl.map (config, ·)) with
    | some (config, impl) =>
      if state.recursionDepthLeft = 0 ∨ state.left.len = 0 ∨ state.right.len = 0 then
        let (rc, state) := diffAlgoNone root state
        some (rc, state.result)
      else
        match impl.run root config.permittedStateSize { state with tempResult := [] } with
        | (.useDiffAlgoFallback, state') => diffRunAlgo root configs fuel config.fallbackAlgo state'
        | (.ok, state') =>
          solveTempResult (diffRunAlgo root configs fuel config.innerAlgo)
            state.recursionDepthLeft state'.tempResult state'.result
    | none =>
      let (rc, state) := diffAlgoNone root state
      some (rc, state.result)

/-- `UINT_MAX` -/
def uintMax : ℕ := 2 ^ 32 - 1

/-- **`diff_main`**, with the chunks in order. -/
def diffMain (root : DiffRoot) (configs : ι → DiffAlgoConfig ι) (fuel : ℕ) (algo : Option ι)
    (maxRecursionDepth : ℕ) : Option (DiffRc × List DiffChunk) :=
  let depth := if maxRecursionDepth = 0 then uintMax else maxRecursionDepth
  (diffRunAlgo root configs fuel algo
    ⟨[], [], ⟨0, root.left.length⟩, ⟨0, root.right.length⟩, depth⟩).map
    (fun result => (result.1, result.2.reverse))

/-! ## A sound script -/

variable {root : DiffRoot} {left right : DiffData} {state : DiffState}
    {configs : ι → DiffAlgoConfig ι}
  {chunks result : List DiffChunk} {l r l' r' fuel : ℕ} {algo : Option ι}

/-- **Ranges that follow each other**, given by their starts and lengths. -/
def Covers : ℕ → List (ℕ × ℕ) → ℕ → Prop
  | a, [], b => a = b
  | a, range :: ranges, b => range.1 = a ∧ Covers (a + range.2) ranges b

/-- **A sound script** up to an atom on either side: the chunks cover the atoms up
to there, one after the other, and where a chunk has atoms on both sides these are
the same. -/
structure SoundScript (root : DiffRoot) (chunks : List DiffChunk) (l r : ℕ) : Prop where
  left : Covers 0 (chunks.map fun c => (c.leftStart, c.leftCount)) l
  right : Covers 0 (chunks.map fun c => (c.rightStart, c.rightCount)) r
  good : ∀ c ∈ chunks, c.Good root

/-- Ranges one behind the other cover what the first and then the second of them cover. -/
theorem Covers.append {ranges ranges' : List (ℕ × ℕ)} {a c : ℕ} :
    Covers a (ranges ++ ranges') c ↔ ∃ b, Covers a ranges b ∧ Covers b ranges' c := by
  induction ranges generalizing a with
  | nil => exact ⟨fun h => ⟨a, rfl, h⟩, fun ⟨_, heq, h⟩ => heq ▸ h⟩
  | cons range ranges ih =>
    rw [List.cons_append, Covers, ih]
    exact ⟨fun ⟨h1, b, h2, h3⟩ => ⟨b, ⟨h1, h2⟩, h3⟩, fun ⟨b, ⟨h1, h2⟩, h3⟩ => ⟨h1, b, h2, h3⟩⟩

/-- The chunks an algorithm has made are a sound script, from the last one to the
first. -/
theorem upto_iff : Upto root result l r ↔ SoundScript root result.reverse l r := by
  induction result generalizing l r with
  | nil => exact ⟨fun h => ⟨h.1.symm, h.2.symm, fun _ h => absurd h List.not_mem_nil⟩,
      fun h => ⟨h.left.symm, h.right.symm⟩⟩
  | cons c result ih =>
    rw [Upto, ih, List.reverse_cons]
    constructor
    · rintro ⟨hgood, rfl, rfl, h⟩
      refine ⟨?_, ?_, fun c' hc' => ?_⟩
      · rw [List.map_append]
        exact Covers.append.mpr ⟨c.leftStart, h.left, rfl, rfl⟩
      · rw [List.map_append]
        exact Covers.append.mpr ⟨c.rightStart, h.right, rfl, rfl⟩
      · rcases List.mem_append.mp hc' with hc' | hc'
        · exact h.good c' hc'
        · exact List.mem_singleton.mp hc' ▸ hgood
    · rintro ⟨hleft, hright, hgood⟩
      rw [List.map_append] at hleft hright
      obtain ⟨b, hleft, rfl, hl⟩ := Covers.append.mp hleft
      obtain ⟨b, hright, rfl, hr⟩ := Covers.append.mp hright
      exact ⟨hgood c (by simp), hl.symm, hr.symm, hleft, hright,
        fun c' hc' => hgood c' (List.mem_append_left _ hc')⟩

/-! ## No algorithm is sound -/

variable (root fuel) in
/-- What `diff_algo_none` skips at the start of both sides is equal, and within both. -/
theorem equalAtomsStart_spec {n : ℕ} (hl : n ≤ left.len) (hr : n ≤ right.len) :
    n ≤ equalAtomsStart root left right fuel n ∧ equalAtomsStart root left right fuel n ≤ left.len
      ∧ equalAtomsStart root left right fuel n ≤ right.len
      ∧ ∀ i, n ≤ i → i < equalAtomsStart root left right fuel n →
        root.same (left.start + i) (right.start + i) = true := by
  induction fuel generalizing n with
  | zero => exact ⟨le_rfl, hl, hr, fun i hi hlt => absurd hlt (not_lt.mpr hi)⟩
  | succ fuel ih =>
    rw [equalAtomsStart]
    split
    · next hcond =>
      obtain ⟨hle, hl', hr', hsame⟩ := ih (n := n + 1) hcond.1 hcond.2.1
      refine ⟨by omega, hl', hr', fun i hi hlt => ?_⟩
      rcases eq_or_lt_of_le hi with rfl | hi
      · exact hcond.2.2
      · exact hsame i hi hlt
    · exact ⟨le_rfl, hl, hr, fun i hi hlt => absurd hlt (not_lt.mpr hi)⟩

variable (root fuel) in
/-- What it skips at the end of both sides is equal, and does not overlap the common start. -/
theorem equalAtomsEnd_spec {start n : ℕ} (hl : n ≤ left.len - start) (hr : n ≤ right.len - start) :
    n ≤ equalAtomsEnd root left right start fuel n
      ∧ equalAtomsEnd root left right start fuel n ≤ left.len - start
      ∧ equalAtomsEnd root left right start fuel n ≤ right.len - start
      ∧ ∀ i, n ≤ i → i < equalAtomsEnd root left right start fuel n →
        root.same (left.start + (left.len - 1 - i)) (right.start + (right.len - 1 - i)) = true := by
  induction fuel generalizing n with
  | zero => exact ⟨le_rfl, hl, hr, fun i hi hlt => absurd hlt (not_lt.mpr hi)⟩
  | succ fuel ih =>
    rw [equalAtomsEnd]
    split
    · next hcond =>
      obtain ⟨hle, hl', hr', hsame⟩ := ih (n := n + 1) hcond.1 hcond.2.1
      refine ⟨by omega, hl', hr', fun i hi hlt => ?_⟩
      rcases eq_or_lt_of_le hi with rfl | hi
      · exact hcond.2.2
      · exact hsame i hi hlt
    · exact ⟨le_rfl, hl, hr, fun i hi hlt => absurd hlt (not_lt.mpr hi)⟩

/-- **Everything up to an atom is solved**, and nothing waits. -/
def DiffState.Solved (root : DiffRoot) (state : DiffState) (l r : ℕ) : Prop :=
  state.tempResult = [] ∧ Upto root state.result l r

/-- A solved chunk is added, if it is not empty. -/
theorem DiffState.Solved.addIf (h : state.Solved root l r) (p : Prop) [Decidable p]
    (leftCount rightCount : ℕ) (hp : p ↔ leftCount ≠ 0 ∨ rightCount ≠ 0)
    (hsame : leftCount ≠ 0 → rightCount ≠ 0 → leftCount = rightCount
      ∧ ∀ i < leftCount, root.same (l + i) (r + i) = true) :
    (if p then diffStateAddChunk state ⟨true, l, leftCount, r, rightCount⟩ else state).Solved root
      (l + leftCount) (r + rightCount) := by
  obtain ⟨htemp, hupto⟩ := h
  split
  · next hne =>
    unfold diffStateAddChunk
    rw [if_neg (by simp [htemp])]
    exact ⟨htemp, Upto.add (c := ⟨true, l, leftCount, r, rightCount⟩) hupto ⟨rfl, hp.mp hne, hsame⟩⟩
  · next heq =>
    have hzero : leftCount = 0 ∧ rightCount = 0 := by
      rw [hp] at heq
      omega
    rw [hzero.1, hzero.2]
    exact ⟨htemp, hupto⟩

/-- **No algorithm is also right.** The common start and end are solved, and what is between them
stands as removed and added. -/
theorem diffAlgoNone_spec (h : state.Solved root state.left.start state.right.start) :
    ∃ state', diffAlgoNone root state = (.ok, state')
      ∧ state'.Solved root (state.left.start + state.left.len)
        (state.right.start + state.right.len) := by
  unfold diffAlgoNone
  dsimp only
  have hstart := equalAtomsStart_spec root state.left.len (Nat.zero_le state.left.len)
    (Nat.zero_le state.right.len)
  generalize equalAtomsStart root state.left state.right state.left.len 0 = equalStart at hstart ⊢
  have hend := equalAtomsEnd_spec root state.left.len (Nat.zero_le (state.left.len - equalStart))
    (Nat.zero_le (state.right.len - equalStart))
  generalize equalAtomsEnd root state.left state.right equalStart state.left.len 0 = equalEnd
    at hend ⊢
  obtain ⟨-, hsl, hsr, hsame⟩ := hstart
  obtain ⟨-, hel, her, hsame'⟩ := hend
  refine ⟨_, rfl, ?_⟩
  have h1 := h.addIf (equalStart ≠ 0) equalStart equalStart (by omega) fun _ _ =>
    ⟨rfl, fun i hi => hsame i (Nat.zero_le i) hi⟩
  have h2 := h1.addIf (state.left.len - equalStart - equalEnd ≠ 0)
    (state.left.len - equalStart - equalEnd) 0 (by omega) fun _ h => absurd rfl h
  have h3 := h2.addIf (state.right.len - equalStart - equalEnd ≠ 0) 0
    (state.right.len - equalStart - equalEnd) (by omega) fun h => absurd rfl h
  have h4 := h3.addIf (equalEnd ≠ 0) equalEnd equalEnd (by omega) fun _ _ => ⟨rfl, fun i hi => ?_⟩
  · have hl : state.left.start + equalStart + (state.left.len - equalStart - equalEnd) + 0
      + equalEnd
        = state.left.start + state.left.len := by omega
    have hr : state.right.start + equalStart + 0 + (state.right.len - equalStart - equalEnd)
        + equalEnd = state.right.start + state.right.len := by omega
    rw [hl, hr] at h4
    exact h4
  · have h := hsame' (equalEnd - 1 - i) (Nat.zero_le _) (by omega)
    have hl : state.left.start + (state.left.len - 1 - (equalEnd - 1 - i))
        = state.left.start + equalStart + (state.left.len - equalStart - equalEnd) + 0
          + i := by omega
    have hr : state.right.start + (state.right.len - 1 - (equalEnd - 1 - i))
        = state.right.start + equalStart + 0 + (state.right.len - equalStart - equalEnd) + i := by
      omega
    rwa [hl, hr] at h

/-- No algorithm leaves nothing unsolved. -/
theorem diffAlgoNone_leaves {count : ℕ} (h : state.Leaves count) :
    (diffAlgoNone root state).2.Leaves count := by
  have haddIf : ∀ {state : DiffState} (p : Prop) [Decidable p] (l leftCount r rightCount : ℕ),
      state.Leaves count →
      (if p then diffStateAddChunk state ⟨true, l, leftCount, r, rightCount⟩ else state).Leaves
        count := by
    intro state p _ l leftCount r rightCount h
    split
    · exact h.addSolved _ _ _ _
    · exact h
  exact haddIf _ _ _ _ _ (haddIf _ _ _ _ _ (haddIf _ _ _ _ _ (haddIf _ _ _ _ _ h)))

/-! ## Every configuration is sound -/

theorem DiffState.Solved.at (h : state.Solved root l r) : state.At root l r :=
  ⟨l, r, h.2, h.1 ▸ ⟨rfl, rfl⟩⟩

/-- **Any algorithm** solves or divides what it is given, or leaves it alone. -/
theorem DiffAlgoImpl.run_spec (impl : DiffAlgoImpl) (permittedStateSize : ℕ)
    (hleft : state.left.len ≠ 0) (hright : state.right.len ≠ 0)
    (h : state.Solved root state.left.start state.right.start) :
    impl.run root permittedStateSize state = (.useDiffAlgoFallback, state)
      ∨ ∃ state', impl.run root permittedStateSize state = (.ok, state')
        ∧ state'.At root (state.left.start + state.left.len)
          (state.right.start + state.right.len) := by
  cases impl with
  | none => exact Or.inr ((diffAlgoNone_spec h).imp fun _ h => ⟨h.1, h.2.at⟩)
  | myers => exact diffAlgoMyers_spec h.at
  | myersDivide => exact diffAlgoMyersDivide_spec hleft hright h.at
  | patience => exact diffAlgoPatience_spec h.at

/-- **Any algorithm** leaves less unsolved than it is given. -/
theorem DiffAlgoImpl.run_leaves (impl : DiffAlgoImpl) (permittedStateSize : ℕ)
    (hleft : state.left.len ≠ 0) (hright : state.right.len ≠ 0)
    (h : state.Leaves (state.left.len + state.right.len)) :
    (impl.run root permittedStateSize state).2.Leaves (state.left.len + state.right.len) := by
  cases impl with
  | none => exact diffAlgoNone_leaves h
  | myers => exact diffAlgoMyers_leaves h
  | myersDivide => exact diffAlgoMyersDivide_leaves hleft hright h
  | patience => exact diffAlgoPatience_leaves h

/-- **The chunks that wait are solved**, if the inner algorithm solves what it is
given. -/
theorem solveTempResult_spec {runInner : DiffState → Option (DiffRc × List DiffChunk)} {depth : ℕ}
    {out : DiffRc × List DiffChunk}
    (hinner : ∀ state out, state.Solved root state.left.start state.right.start →
      runInner state = some out → out.1 = .ok ∧ Upto root out.2
        (state.left.start + state.left.len) (state.right.start + state.right.len))
    (hupto : Upto root result l r) (hfrom : FromTo root l r chunks l' r')
    (h : solveTempResult runInner depth chunks result = some out) :
    out.1 = .ok ∧ Upto root out.2 l' r' := by
  induction chunks generalizing result l r with
  | nil =>
    obtain ⟨rfl, rfl⟩ := hfrom
    obtain rfl := Option.some.inj h
    exact ⟨rfl, hupto⟩
  | cons c chunks ih =>
    obtain ⟨rfl, rfl, hgood, hfrom⟩ := hfrom
    rw [solveTempResult] at h
    split at h
    · next hsolved => exact ih (hupto.add (hgood hsolved)) hfrom h
    · split at h
      · next result' hres =>
        obtain ⟨-, hupto'⟩ := hinner _ _ ⟨rfl, hupto⟩ hres
        exact ih hupto' hfrom h
      · next hnot =>
        obtain ⟨hok, -⟩ := hinner _ _ ⟨rfl, hupto⟩ h
        exact absurd (hnot out.2) (fun hne => hne (h.trans (by rw [← hok])))

/-- **Whatever the configuration is**, what it makes is sound, up to the end of
what it was given. -/
theorem diffRunAlgo_upto {out : DiffRc × List DiffChunk}
    (hsolved : state.Solved root state.left.start state.right.start)
    (h : diffRunAlgo root configs fuel algo state = some out) :
    out.1 = .ok ∧ Upto root out.2 (state.left.start + state.left.len)
      (state.right.start + state.right.len) := by
  induction fuel generalizing algo state out with
  | zero => exact absurd h nofun
  | succ fuel ih =>
    have hnone : ∀ {out}, (some ((diffAlgoNone root state).1, (diffAlgoNone root state).2.result)
        = some out) → out.1 = .ok ∧ Upto root out.2 (state.left.start + state.left.len)
          (state.right.start + state.right.len) := by
      intro out h
      obtain ⟨state', heq, hsolved'⟩ := diffAlgoNone_spec hsolved
      rw [heq] at h
      obtain rfl := Option.some.inj h
      exact ⟨rfl, hsolved'.2⟩
    rw [diffRunAlgo] at h
    dsimp only at h
    split at h
    · next config impl _ =>
      split at h
      · exact hnone h
      · next hne =>
        have htemp : { state with tempResult := [] } = state := by
          rw [← hsolved.1]
        rw [htemp] at h
        rcases impl.run_spec config.permittedStateSize (by omega) (by omega) hsolved with
          heq | ⟨state', heq, l₀, r₀, hupto, hfrom⟩
        · rw [heq] at h
          exact ih hsolved h
        · rw [heq] at h
          exact solveTempResult_spec (fun _ _ => ih) hupto hfrom h
    · exact hnone h

/-- **`diff_run_algo` and `diff_main` return sound scripts**, for all files, with any
configuration and any limit of the recursion: if the chunks there already are a
sound script up to where an algorithm starts, it goes on with it up to the end of
what it is given, and from the start of the files it gets to their end. Lengths are
natural numbers here, which are those of the source for files that have fewer than
`2 ^ 31` atoms together; for longer ones the source does not get as far as a script. -/
theorem diffRunAlgo_sound (root : DiffRoot) (configs : ι → DiffAlgoConfig ι) (fuel : ℕ)
    (algo : Option ι) :
    (∀ (state : DiffState) result, state.tempResult = [] →
        SoundScript root state.result.reverse state.left.start state.right.start →
        diffRunAlgo root configs fuel algo state = some (.ok, result) →
        SoundScript root result.reverse (state.left.start + state.left.len)
          (state.right.start + state.right.len))
      ∧ ∀ maxRecursionDepth chunks,
        diffMain root configs fuel algo maxRecursionDepth = some (.ok, chunks) →
        SoundScript root chunks root.left.length root.right.length := by
  constructor
  · intro state result htemp hsound h
    exact upto_iff.mp (diffRunAlgo_upto ⟨htemp, upto_iff.mpr hsound⟩ h).2
  · intro maxRecursionDepth chunks h
    obtain ⟨out, h, heq⟩ := Option.map_eq_some_iff.mp h
    have hstart : DiffState.Solved root ⟨[], [], ⟨0, root.left.length⟩, ⟨0, root.right.length⟩,
        if maxRecursionDepth = 0 then uintMax else maxRecursionDepth⟩ 0 0 := ⟨rfl, rfl, rfl⟩
    obtain ⟨-, hupto⟩ := diffRunAlgo_upto hstart h
    rw [← (Prod.mk.inj heq).2]
    have hsound := upto_iff.mp hupto
    rwa [Nat.zero_add, Nat.zero_add] at hsound

/-- Four lines on the left and three on the right, of which two are the same. -/
theorem exampleDiff_sound :
    SoundScript ⟨[⟨1, [1]⟩, ⟨2, [2]⟩, ⟨3, [3]⟩, ⟨4, [4]⟩], [⟨2, [2]⟩, ⟨5, [5]⟩, ⟨3, [3]⟩], false⟩
        [⟨true, 0, 1, 0, 0⟩, ⟨true, 1, 1, 0, 1⟩, ⟨true, 2, 0, 1, 1⟩, ⟨true, 2, 1, 2, 1⟩,
          ⟨true, 3, 1, 3, 0⟩] 4 3
      ∧ SoundScript ⟨[⟨1, [1]⟩, ⟨2, [2]⟩], [⟨1, [1]⟩, ⟨3, [3]⟩], false⟩
          [⟨true, 0, 1, 0, 1⟩, ⟨true, 1, 1, 1, 0⟩, ⟨true, 2, 0, 1, 1⟩] 2 2 := by
  constructor
  · exact (diffRunAlgo_sound _ DiffregAlgo.config 5 (some .patience)).2 0 _ rfl
  · have hstart : SoundScript ⟨[⟨1, [1]⟩, ⟨2, [2]⟩], [⟨1, [1]⟩, ⟨3, [3]⟩], false⟩
        [⟨true, 0, 1, 0, 1⟩] 1 1 := by
      refine ⟨⟨rfl, rfl⟩, ⟨rfl, rfl⟩, fun c hc => ?_⟩
      obtain rfl := List.mem_singleton.mp hc
      refine ⟨rfl, Or.inl one_ne_zero, fun _ _ => ⟨rfl, fun i hi => ?_⟩⟩
      obtain rfl : i = 0 := Nat.lt_one_iff.mp hi
      rfl
    exact (diffRunAlgo_sound _ DiffregAlgo.config 5 (some .myersDivide)).1
      ⟨[⟨true, 0, 1, 0, 1⟩], [], ⟨1, 1⟩, ⟨1, 1⟩, 9⟩
      [⟨true, 2, 0, 1, 1⟩, ⟨true, 1, 1, 1, 0⟩, ⟨true, 0, 1, 0, 1⟩] rfl hstart rfl

/-! ## The run ends -/

/-- The loop over the chunks that wait ends if the inner runs do. -/
theorem solveTempResult_total {runInner : DiffState → Option (DiffRc × List DiffChunk)} {depth : ℕ}
    (hinner : ∀ c ∈ chunks, c.solved = false → ∀ result,
      Upto root result c.leftStart c.rightStart → ∃ result',
        runInner ⟨result, [], ⟨c.leftStart, c.leftCount⟩, ⟨c.rightStart, c.rightCount⟩, depth - 1⟩
          = some (.ok, result') ∧ Upto root result' c.leftEnd c.rightEnd)
    (hupto : Upto root result l r) (hfrom : FromTo root l r chunks l' r') :
    ∃ result', solveTempResult runInner depth chunks result = some (.ok, result') := by
  induction chunks generalizing result l r with
  | nil => exact ⟨result, rfl⟩
  | cons c chunks ih =>
    have ih := fun result l r =>
      @ih result l r fun c hc => hinner c (List.mem_cons_of_mem _ hc)
    obtain ⟨rfl, rfl, hgood, hfrom⟩ := hfrom
    rw [solveTempResult]
    split
    · next hsolved => exact ih _ _ _ (hupto.add (hgood hsolved)) hfrom
    · next hunsolved =>
      obtain ⟨result', heq, hupto'⟩ := hinner c List.mem_cons_self
        (Bool.not_eq_true _ ▸ hunsolved) result hupto
      rw [heq]
      exact ih _ _ _ hupto' hfrom

/-- **The run ends**, if one cannot fall back forever. It takes as many calls within
each other as there are fallbacks one after the other, for every unit of a measure that
gets smaller when the depth does and there are fewer atoms. -/
theorem diffRunAlgo_total (rank : ι → ℕ) (maxRank : ℕ) (hmax : ∀ i, rank i ≤ maxRank)
    (hrank : ∀ i j, (configs i).fallbackAlgo = some j → rank j < rank i)
    (measure : ℕ → ℕ → ℕ) (hmeasure : ∀ {count count' depth : ℕ}, count' < count → depth ≠ 0 →
      measure count' (depth - 1) < measure count depth)
    (hsolved : state.Solved root state.left.start state.right.start)
    (hfuel : measure (state.left.len + state.right.len) state.recursionDepthLeft * (maxRank + 2)
      + algo.elim 0 (rank · + 1) < fuel) :
    ∃ result, diffRunAlgo root configs fuel algo state = some (.ok, result) := by
  induction fuel generalizing algo state with
  | zero => omega
  | succ fuel ih =>
    have hnone : ∃ result, some ((diffAlgoNone root state).1, (diffAlgoNone root state).2.result)
        = some (DiffRc.ok, result) := by
      obtain ⟨state', heq, -⟩ := diffAlgoNone_spec hsolved
      exact ⟨_, by rw [heq]⟩
    rw [diffRunAlgo]
    dsimp only
    cases algo with
    | none => exact hnone
    | some i =>
      rw [Option.elim_some] at hfuel
      split
      · next config impl himpl =>
        obtain ⟨impl', -, heq⟩ := Option.map_eq_some_iff.mp himpl
        obtain ⟨rfl, rfl⟩ := Prod.mk.inj heq
        split
        · exact hnone
        · next hne =>
          have htemp : { state with tempResult := [] } = state := by
            rw [← hsolved.1]
          rw [htemp]
          have hleaves := @DiffAlgoImpl.run_leaves root state impl' (configs i).permittedStateSize
            (by omega) (by omega) fun c hc => absurd (hsolved.1 ▸ hc) List.not_mem_nil
          rcases impl'.run_spec (configs i).permittedStateSize (by omega) (by omega) hsolved with
            heq | ⟨state', heq, l₀, r₀, hupto, hfrom⟩
          · rw [heq]
            refine ih hsolved ?_
            cases hfallback : (configs i).fallbackAlgo with
            | none => exact Nat.lt_of_le_of_lt (by simp) (Nat.lt_of_succ_lt_succ hfuel)
            | some j =>
              have := hrank i j hfallback
              rw [Option.elim_some]
              omega
          · rw [heq] at hleaves ⊢
            refine solveTempResult_total (fun c hc hunsolved result hupto' => ?_) hupto hfrom
            have hle : (configs i).innerAlgo.elim 0 (rank · + 1) ≤ maxRank + 1 := by
              cases (configs i).innerAlgo with
              | none => exact Nat.zero_le _
              | some j => exact Nat.succ_le_succ (hmax j)
            -- what is left is less, and the depth is not used up
            have hless := hmeasure (hleaves c hc hunsolved) (fun h => hne (Or.inl h))
            have hsolved' : DiffState.Solved root ⟨result, [], ⟨c.leftStart, c.leftCount⟩,
              ⟨c.rightStart, c.rightCount⟩, state.recursionDepthLeft
                - 1⟩ c.leftStart c.rightStart :=
              ⟨rfl, hupto'⟩
            obtain ⟨result', hres⟩ : ∃ result', diffRunAlgo root configs fuel (configs i).innerAlgo
                ⟨result, [], ⟨c.leftStart, c.leftCount⟩, ⟨c.rightStart, c.rightCount⟩,
                  state.recursionDepthLeft - 1⟩ = some (.ok, result') := by
              refine ih hsolved' ?_
              have := Nat.mul_le_mul_right (maxRank + 2) (Nat.succ_le_of_lt hless)
              rw [Nat.succ_mul] at this
              dsimp only
              omega
            exact ⟨result', hres, (diffRunAlgo_upto hsolved' hres).2⟩
      · exact hnone

/-- An algorithm that is not given something else to fall back to comes last. -/
def DiffregAlgo.rank : DiffregAlgo → ℕ
  | myersThenPatience => 3
  | patience => 2
  | myersThenMyersDivide => 1
  | myersDivide => 0

theorem DiffregAlgo.rank_le (i : DiffregAlgo) : i.rank ≤ 3 := by
  cases i <;> decide

theorem DiffregAlgo.rank_lt (i j : DiffregAlgo) (h : i.config.fallbackAlgo = some j) :
    j.rank < i.rank := by
  cases i <;> cases h <;> decide

/-- **`diff_run_algo` ends with any of them**, however deep it may go: it takes five calls
within each other for every atom, at most. Whatever an algorithm leaves unsolved has fewer
atoms than it was given, and two of them leave nothing unsolved. As above, this is about files
that have fewer than `2 ^ 31` atoms together. -/
theorem diffRunAlgo_terminates (root : DiffRoot) (algo : Option DiffregAlgo) :
    (∀ (state : DiffState) (fuel : ℕ), state.Solved root state.left.start state.right.start →
        (state.left.len + state.right.len) * 5 + 4 < fuel →
        ∃ result, diffRunAlgo root DiffregAlgo.config fuel algo state = some (.ok, result))
      ∧ (∀ maxRecursionDepth, ∃ chunks, diffMain root DiffregAlgo.config
          ((root.left.length + root.right.length) * 5 + 5) algo maxRecursionDepth
            = some (.ok, chunks))
      ∧ ∀ (impl : DiffAlgoImpl) (permittedStateSize : ℕ) (state : DiffState),
        state.left.len ≠ 0 → state.right.len ≠ 0 → state.tempResult = [] →
          (impl.run root permittedStateSize state).2.Leaves (state.left.len + state.right.len)
            ∧ (impl = .none ∨ impl = .myers →
              (impl.run root permittedStateSize state).2.Leaves 0) := by
  have hrun : ∀ (state : DiffState) (fuel : ℕ),
      state.Solved root state.left.start state.right.start →
      (state.left.len + state.right.len) * 5 + 4 < fuel →
      ∃ result, diffRunAlgo root DiffregAlgo.config fuel algo state = some (.ok, result) := by
    intro state fuel hsolved hfuel
    have hrank : algo.elim 0 (DiffregAlgo.rank · + 1) ≤ 4 := by
      cases algo with
      | none => exact Nat.zero_le _
      | some i => exact Nat.succ_le_succ i.rank_le
    exact diffRunAlgo_total DiffregAlgo.rank 3 DiffregAlgo.rank_le DiffregAlgo.rank_lt
      (fun count _ => count) (fun h _ => h) hsolved (by omega)
  refine ⟨hrun, fun maxRecursionDepth => ?_,
    fun impl permittedStateSize state hleft hright htemp => ?_⟩
  · obtain ⟨result, h⟩ := hrun ⟨[], [], ⟨0, root.left.length⟩, ⟨0, root.right.length⟩,
      if maxRecursionDepth = 0 then uintMax else maxRecursionDepth⟩ _ ⟨rfl, rfl, rfl⟩
      (Nat.lt_succ_self _)
    exact ⟨result.reverse, by rw [diffMain, h]; rfl⟩
  · have hleaves : ∀ count, state.Leaves count := fun count c hc =>
      absurd (htemp ▸ hc) List.not_mem_nil
    refine ⟨impl.run_leaves permittedStateSize hleft hright (hleaves _), ?_⟩
    rintro (rfl | rfl)
    · exact diffAlgoNone_leaves (hleaves 0)
    · exact diffAlgoMyers_leaves (hleaves 0)

/-- The theorem at work on two lines of which one is removed. -/
theorem diffRunAlgo_terminates_twoLines :
    (∃ result, diffRunAlgo ⟨[⟨1, [1]⟩, ⟨2, [2]⟩], [⟨2, [2]⟩], false⟩ DiffregAlgo.config 20
        (some .patience) ⟨[], [], ⟨0, 2⟩, ⟨0, 1⟩, uintMax⟩ = some (.ok, result))
      ∧ (DiffAlgoImpl.run ⟨[⟨1, [1]⟩, ⟨2, [2]⟩], [⟨2, [2]⟩], false⟩ 0
        ⟨[], [], ⟨0, 2⟩, ⟨0, 1⟩, uintMax⟩ .myersDivide).2.Leaves 3 :=
  ⟨(diffRunAlgo_terminates _ (some .patience)).1 _ 20 ⟨rfl, rfl, rfl⟩ (by decide),
    ((diffRunAlgo_terminates _ none).2.2 .myersDivide 0 ⟨[], [], ⟨0, 2⟩, ⟨0, 1⟩, uintMax⟩
    (by decide)
      (by decide) rfl).1⟩

/-- The fuel with which a run by patience ends. -/
def diffFuel : ℕ := uintMax * 5 + 4

/-- **`diff_main`, by patience** and with no limit to the depth. -/
def diffMainPatience (root : DiffRoot) : List DiffChunk :=
  match diffMain root DiffregAlgo.config diffFuel (some .patience) 0 with
  | some (_, chunks) => chunks
  | none => []

/-- **The run by patience ends**, and what it returns is a sound script. -/
theorem diffMainPatience_sound (root : DiffRoot) :
    SoundScript root (diffMainPatience root) root.left.length root.right.length := by
  obtain ⟨result, h⟩ := @diffRunAlgo_total _ root
    ⟨[], [], ⟨0, root.left.length⟩, ⟨0, root.right.length⟩, uintMax⟩ DiffregAlgo.config diffFuel
    (some .patience) DiffregAlgo.rank 3 DiffregAlgo.rank_le DiffregAlgo.rank_lt
    (fun _ depth => depth) (fun _ h => Nat.sub_one_lt h) ⟨rfl, rfl, rfl⟩
    (show uintMax * (3 + 2) + (2 + 1) < diffFuel by decide)
  have hmain : diffMain root DiffregAlgo.config diffFuel (some .patience) 0
      = some (.ok, result.reverse) := by
    rw [diffMain, if_pos rfl, h]
    rfl
  rw [diffMainPatience, hmain]
  exact (diffRunAlgo_sound root _ _ _).2 _ _ hmain

end Got

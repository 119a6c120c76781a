import Got.Diff.Myers

/-!
# Myers' algorithm, divided

To do with two columns of the graph, the graph is walked through from both ends
at once, until the two walks meet. What was stepped over or slid along last is
the middle, and what lies before it and behind it is left for another algorithm.
If the walks take too long to meet, the graph is divided where one of them got
farthest.

The way from the end is not the mirror image of the one from the start: where it
leaves the graph on the right it goes on from a diagonal it never was on, and
from then on it may seem to be farther than it is. So the walks may be taken to
meet where they do not. What is the middle is decided by one walk alone, though,
so it is a valid one all the same, which is what `divideMidpoint_valid` says.
-/

namespace Got

open EditGraph

/-- A box in the graph. -/
structure DiffBox where
  leftStart : ℤ
  leftEnd : ℤ
  rightStart : ℤ
  rightEnd : ℤ
  deriving DecidableEq

section Divide

variable (same : ℤ → ℤ → Bool) (m n : ℤ)

/-! ## Forwards -/

/-- Where one comes from on a diagonal and where one comes to it. -/
def forwardStep (kdForward : Column) (d : ℕ) (k : ℤ) : ℤ × ℤ × ℤ :=
  if d = 0 then (0, 0 - k, 0)
  else if FromLeft n kdForward d k then
    let prevX := kdForward (k - 1)
    (prevX, prevX - (k - 1), prevX + 1)
  else
    let prevX := kdForward (k + 1)
    (prevX, prevX - (k + 1), prevX)

/-- Whether the way from the end has been there, which is only known for every
other diagonal. -/
def forwardMeets (kdBackward : Column) (d : ℕ) (k prevX prevY xBeforeSlide x : ℤ) :
    Option DiffBox :=
  let delta := n - m
  let c := k + delta
  let backwardsD : ℤ := d - 1
  if x < 0 ∨ x > m ∨ x - k < 0 ∨ x - k > n then none
  else if delta % 2 = 0 then none
  else if backwardsD < 0 then none
  else if -backwardsD ≤ c ∧ c ≤ backwardsD ∧ x ≥ kdBackward c then
    if xBeforeSlide ≠ x then some ⟨xBeforeSlide, x, xBeforeSlide - c + delta, x - k⟩
    else some ⟨prevX, x, prevY, x - k⟩
  else none

/-- **`diff_divide_myers_forward`** -/
def diffDivideMyersForward (kdBackward : Column) (d : ℕ) :
    List ℤ → Column → Option DiffBox × Column
  | [], kdForward => (none, kdForward)
  | k :: ks, kdForward =>
    if k < -n ∨ k > m then
      if k < 0 then (none, kdForward) else diffDivideMyersForward kdBackward d ks kdForward
    else
      let (prevX, prevY, xBeforeSlide) := forwardStep n kdForward d k
      let x := slide same m n xBeforeSlide k
      let kdForward := Function.update kdForward k x
      match forwardMeets m n kdBackward d k prevX prevY xBeforeSlide x with
      | some box => (some box, kdForward)
      | none => diffDivideMyersForward kdBackward d ks kdForward

/-! ## Backwards -/

/-- The slide backward along a diagonal while the atoms before are equal. -/
def slideUpLoop (c delta : ℤ) : ℕ → ℤ → ℤ
  | 0, x => x
  | fuel + 1, x =>
    if x > 0 ∧ x - c + delta > 0 ∧ same (x - 1) (x - c + delta - 1)
      then slideUpLoop c delta fuel (x - 1)
    else x

/-- **Slide up** the diagonal `c` from `x` as far as possible. -/
def slideUp (c delta x : ℤ) : ℤ := slideUpLoop same c delta x.toNat x

/-- Where one comes from on a diagonal and where one comes to it, on the way from
the end. -/
def backwardStep (kdBackward : Column) (d : ℕ) (c : ℤ) : ℤ × ℤ × ℤ :=
  let delta := n - m
  if d = 0 then (m, m - c + delta, m)
  else if c > -d ∧ (c = d ∨ (c - 1 ≥ -n ∧ kdBackward (c - 1) ≤ kdBackward (c + 1))) then
    let prevX := kdBackward (c - 1)
    (prevX, prevX - (c - 1) + delta, prevX)
  else
    let prevX := kdBackward (c + 1)
    (prevX, prevX - (c + 1) + delta, prevX - 1)

/-- Whether the way from the start has been there. -/
def backwardMeets (kdForward : Column) (d : ℕ) (c prevX prevY xBeforeSlide x : ℤ) :
    Option DiffBox :=
  let delta := n - m
  let k := c - delta
  if x < 0 ∨ x > m ∨ x - c + delta < 0 ∨ x - c + delta > n then none
  else if delta % 2 ≠ 0 then none
  else if -d ≤ k ∧ k ≤ d ∧ kdForward k ≥ x then
    if xBeforeSlide ≠ x then some ⟨x, xBeforeSlide, x - c + delta, xBeforeSlide - k⟩
    else some ⟨x, prevX, x - c + delta, prevY⟩
  else none

/-- **`diff_divide_myers_backward`** -/
def diffDivideMyersBackward (kdForward : Column) (d : ℕ) :
    List ℤ → Column → Option DiffBox × Column
  | [], kdBackward => (none, kdBackward)
  | c :: cs, kdBackward =>
    if c < -m ∨ c > n then
      if c < 0 then (none, kdBackward) else diffDivideMyersBackward kdForward d cs kdBackward
    else
      let (prevX, prevY, xBeforeSlide) := backwardStep m n kdBackward d c
      let x := slideUp same c (n - m) xBeforeSlide
      let kdBackward := Function.update kdBackward c x
      match backwardMeets m n kdForward d c prevX prevY xBeforeSlide x with
      | some box => (some box, kdBackward)
      | none => diffDivideMyersBackward kdForward d cs kdBackward

/-! ## Both -/

/-- The loop of `shift_sqrt`: two bits less of the value, one bit more of the root. -/
def shiftSqrtLoop : ℕ → ℕ → ℕ → ℕ
  | 0, _, i => i
  | fuel + 1, val, i => if val > 0 then shiftSqrtLoop fuel (val / 4) (2 * i) else i

/-- **`shift_sqrt`** -/
def shiftSqrt (val : ℕ) : ℕ := shiftSqrtLoop val val 1

/-- `DIFF_EFFORT_MIN`: below this many steps the search is never cut short. -/
def diffEffortMin : ℕ := 1024

/-- The diagonal on which the way from the start got farthest, and how far that
is. -/
def bestForward (kdForward : Column) (d : ℕ) : ℤ × ℤ :=
  (diagonals d).foldl (fun best i =>
    if i ≥ -n ∧ i ≤ m then
      let x := kdForward i
      let distance := x + (x - i)
      if distance > best.2 then (i, distance) else best
    else best) (0, 0)

/-- The same for the way from the end. -/
def bestBackward (kdBackward : Column) (d : ℕ) : ℤ × ℤ :=
  (diagonals d).foldl (fun best i =>
    if i ≥ -m ∧ i ≤ n then
      let x := kdBackward i
      let y := x - i + (n - m)
      let distance := (n - x) + (m - y)
      if distance ≥ best.2 then (i, distance) else best
    else best) (0, 0)

/-- Where one of the ways got farthest. -/
def farthestPoint (kdForward kdBackward : Column) (d : ℕ) : ℤ × ℤ :=
  let (forwardI, forwardDistance) := bestForward m n kdForward d
  let (backwardI, backwardDistance) := bestBackward m n kdBackward d
  let forwardX := kdForward forwardI
  let backwardX := kdBackward backwardI
  if forwardDistance ≥ backwardDistance then (forwardX, forwardX - forwardI)
  else (backwardX, backwardX - backwardI + (n - m))

/-- The graph is divided there, if that is in the graph. -/
def effortCut (kdForward kdBackward : Column) (d : ℕ) : Option DiffBox :=
  let (x, y) := farthestPoint m n kdForward kdBackward d
  if x < 0 ∨ y < 0 ∨ x > m ∨ y > n then none else some ⟨x, x, y, y⟩

/-- The loop over the steps, of which there are `fuel` left. -/
def divideMidpoint (maxEffort : ℕ) : ℕ → ℕ → Column → Column → Option DiffBox
  | 0, _, _, _ => none
  | fuel + 1, d, kdForward, kdBackward =>
    match diffDivideMyersForward same m n kdBackward d (diagonals d) kdForward with
    | (some box, _) => some box
    | (none, kdForward) =>
      match diffDivideMyersBackward same m n kdForward d (diagonals d) kdBackward with
      | (some box, _) => some box
      | (none, kdBackward) =>
        if d > maxEffort then effortCut m n kdForward kdBackward d
        else divideMidpoint maxEffort fuel (d + 1) kdForward kdBackward

end Divide

/-- **`diff_algo_myers_divide`** -/
def diffAlgoMyersDivide (root : DiffRoot) (state : DiffState) : DiffRc × DiffState :=
  let left := state.left
  let right := state.right
  let max := left.len + right.len
  let maxEffort := Nat.max (shiftSqrt (max / 2)) diffEffortMin
  match divideMidpoint (state.same root) left.len right.len maxEffort (max / 2 + 1) 0
    (fun _ => -1) (fun _ => -1) with
  | none => (.useDiffAlgoFallback, state)
  | some box =>
    let leftStart := box.leftStart.toNat
    let leftEnd := box.leftEnd.toNat
    let rightStart := box.rightStart.toNat
    let rightEnd := box.rightEnd.toNat
    -- the section before the middle
    let state := diffStateAddSection state left.start leftStart right.start rightStart
    let state :=
      if leftEnd > leftStart ∨ rightEnd > rightStart then
        diffStateAddChunk state ⟨true, left.start + leftStart, leftEnd - leftStart,
          right.start + rightStart, rightEnd - rightStart⟩
      else state
    -- and the one behind it
    (.ok, diffStateAddSection state (left.start + leftEnd) (left.len - leftEnd)
      (right.start + rightEnd) (right.len - rightEnd))

/-! ## The way from the end -/

/-- **How far to the left one gets** on the way from the end, on the diagonals in the graph.
It is -1 on those where one never was. -/
def retreat (same : ℤ → ℤ → Bool) (m n : ℤ) : ℕ → Column
  | 0, c => if c = 0 then slideUp same 0 (n - m) m else -1
  | d + 1, c =>
    if InRange n m (d + 1) c then
      slideUp same c (n - m) (backwardStep m n (retreat same m n d) (d + 1) c).2.2
    else -1

section Divide

variable {same : ℤ → ℤ → Bool} {m n : ℤ} {d : ℕ} {k c x x₀ prevX prevY : ℤ}
  {kdForward kdBackward : Column} {ks cs : List ℤ} {box : DiffBox}

/-- Outside of the box nothing can be reached from the end. -/
theorem retreat_of_not_inRange (h : ¬InRange n m d c) (hm : 0 ≤ m) (hn : 0 ≤ n) :
    retreat same m n d c = -1 := by
  cases d with
  | zero =>
    refine if_neg fun hc => h ?_
    subst hc
    exact ⟨by omega, by omega, by omega, by omega, by omega⟩
  | succ d => exact if_neg h

theorem inRange_of_retreat (hm : 0 ≤ m) (hn : 0 ≤ n) (h : 0 ≤ retreat same m n d c) :
    InRange n m d c := by
  by_contra hnot
  rw [retreat_of_not_inRange hnot hm hn] at h
  omega

variable (same) in
/-- The slide stops at the first atoms that differ, or at the edge of the box. -/
theorem slideUpLoop_spec (fuel : ℕ) (c delta x : ℤ) (hx : x ≤ fuel) :
    slideUpLoop same c delta fuel x ≤ x
      ∧ (slideUpLoop same c delta fuel x = x
        ∨ 0 ≤ slideUpLoop same c delta fuel x ∧ 0 ≤ slideUpLoop same c delta fuel x - c + delta)
      ∧ (∀ z, slideUpLoop same c delta fuel x ≤ z → z < x → same z (z - c + delta) = true)
      ∧ ¬(0 < slideUpLoop same c delta fuel x ∧ 0 < slideUpLoop same c delta fuel x - c + delta
        ∧ same (slideUpLoop same c delta fuel x - 1)
          (slideUpLoop same c delta fuel x - c + delta - 1)) := by
  induction fuel generalizing x with
  | zero =>
    refine ⟨le_refl x, Or.inl rfl, fun z hz hlt => absurd hlt (not_lt_of_ge hz), fun h => ?_⟩
    have h := h.1
    rw [slideUpLoop] at h
    push_cast at hx
    omega
  | succ fuel ih =>
    rw [slideUpLoop]
    split
    · next hcond =>
      obtain ⟨hle, hin, hsame, hmax⟩ := ih (x - 1) (by push_cast at hx; omega)
      refine ⟨by omega, Or.inr ?_, fun z hz hlt => ?_, hmax⟩
      · rcases hin with heq | hin
        · rw [heq]
          omega
        · exact hin
      · rcases eq_or_lt_of_le (Int.le_sub_one_of_lt hlt) with rfl | hlt
        · have heq : x - 1 - c + delta = x - c + delta - 1 := by omega
          rw [heq]
          exact hcond.2.2
        · exact hsame z hz hlt
    · next hcond =>
      exact ⟨le_refl x, Or.inl rfl, fun z hz hlt => absurd hlt (not_lt_of_ge hz), hcond⟩

section

variable (same)

theorem slideUp_le (c delta x : ℤ) : slideUp same c delta x ≤ x :=
  (slideUpLoop_spec same _ c delta x (Int.self_le_toNat _)).1

/-- One does not slide out of the graph. -/
theorem slideUp_in (c delta x : ℤ) : slideUp same c delta x = x
    ∨ 0 ≤ slideUp same c delta x ∧ 0 ≤ slideUp same c delta x - c + delta :=
  (slideUpLoop_spec same _ c delta x (Int.self_le_toNat _)).2.1

/-- All one slides over is the same. -/
theorem same_of_slideUp {z : ℤ} (c delta x : ℤ) (h : slideUp same c delta x ≤ z) (hlt : z < x) :
    same z (z - c + delta) = true :=
  (slideUpLoop_spec same _ c delta x (Int.self_le_toNat _)).2.2.1 z h hlt

/-- One slides as far as possible. -/
theorem slideUp_max (c delta x : ℤ) : ¬(0 < slideUp same c delta x
    ∧ 0 < slideUp same c delta x - c + delta
    ∧ same (slideUp same c delta x - 1) (slideUp same c delta x - c + delta - 1)) :=
  (slideUpLoop_spec same _ c delta x (Int.self_le_toNat _)).2.2.2

end

/-- The step one comes with, given how far one gets with a step less. -/
theorem backwardStep_retreat (h : InRange n m d c)
    (hprev : ∀ e, d = e + 1 → ∀ c : ℤ, (e - c) % 2 = 0 → kdBackward c = retreat same m n e c) :
    slideUp same c (n - m) (backwardStep m n kdBackward d c).2.2 = retreat same m n d c := by
  cases d with
  | zero =>
    obtain rfl : c = 0 := by
      obtain ⟨h1, h2, -⟩ := h
      push_cast at h1 h2
      omega
    rfl
  | succ e =>
    have hpar := h.2.2.1
    have h1 := hprev e rfl (c - 1) (by omega)
    have h2 := hprev e rfl (c + 1) (by omega)
    rw [retreat, if_pos h]
    unfold backwardStep
    rw [h1, h2]

/-! ## The middle is a valid one -/

/-- **A valid middle** is within the graph, and either a step or a slide. -/
structure DiffBox.Valid (same : ℤ → ℤ → Bool) (m n : ℤ) (box : DiffBox) : Prop where
  left : 0 ≤ box.leftStart ∧ box.leftStart ≤ box.leftEnd ∧ box.leftEnd ≤ m
  right : 0 ≤ box.rightStart ∧ box.rightStart ≤ box.rightEnd ∧ box.rightEnd ≤ n
  slide : box.leftStart < box.leftEnd → box.rightStart < box.rightEnd →
    box.leftEnd - box.leftStart = box.rightEnd - box.rightStart
      ∧ ∀ z, box.leftStart ≤ z → z < box.leftEnd →
        same z (z - box.leftStart + box.rightStart) = true

/-- Whether there is anything in the middle. -/
def DiffBox.HasAtoms (box : DiffBox) : Prop :=
  box.leftStart < box.leftEnd ∨ box.rightStart < box.rightEnd

/-- A step to the right or downwards, or none. -/
def IsStep (x y x' y' : ℤ) : Prop := x' = x ∧ y' = y ∨ x' = x + 1 ∧ y' = y ∨ x' = x ∧ y' = y + 1

/-- **Where one comes from** with the last step, which is followed by a slide. -/
structure ForwardFrom (same : ℤ → ℤ → Bool) (m n : ℤ) (d : ℕ) (k prevX prevY x₀ : ℤ) : Prop where
  left : 0 ≤ prevX
  above : 0 ≤ prevY
  step : IsStep prevX prevY x₀ (x₀ - k)
  length : d ≠ 0 → prevX + prevY < x₀ + (x₀ - k)
  slide : EditGraph.slide same m n x₀ k = reach same m n d k
  prev : ∀ e, d = e + 1 → ∃ k', InRange m n e k' ∧ prevX = reach same m n e k' ∧ prevY = prevX - k'

/-- **The walk from the start notices the other one**, and what it comes with is the middle. -/
def FoundForward (same : ℤ → ℤ → Bool) (m n : ℤ) (kdBackward : Column) (d : ℕ) (box : DiffBox) :
    Prop :=
  ∃ k prevX prevY x₀, InRange m n d k ∧ ForwardFrom same m n d k prevX prevY x₀
    ∧ forwardMeets m n kdBackward d k prevX prevY x₀ (reach same m n d k) = some box

section

variable (hm : 0 < m) (hn : 0 < n)

include hm hn

variable (same) in
/-- One diagonal of the forward search starts where the better of its two neighbours stopped. -/
theorem forwardStep_spec (h : InRange m n d k)
    (hprev : ∀ e, d = e + 1 → ∀ k : ℤ, (e - k) % 2 = 0 → kdForward k = reach same m n e k)
    (heq : forwardStep n kdForward d k = (prevX, prevY, x₀)) :
    ForwardFrom same m n d k prevX prevY x₀ := by
  unfold forwardStep at heq
  cases d with
  | zero =>
    obtain rfl : k = 0 := by
      obtain ⟨h1, h2, -⟩ := h
      push_cast at h1 h2
      omega
    obtain ⟨rfl, rfl, rfl⟩ : 0 = prevX ∧ 0 - 0 = prevY ∧ 0 = x₀ := by simpa using heq
    exact ⟨le_rfl, by omega, Or.inl ⟨rfl, rfl⟩, fun h => absurd rfl h, reach_zero.symm,
      fun _ h => by cases h⟩
  | succ e =>
    have hpar := h.2.2.1
    have h1 := hprev e rfl (k - 1) (by omega)
    have h2 := hprev e rfl (k + 1) (by omega)
    have hleft : FromLeft n kdForward (e + 1) k ↔ FromLeft n (reach same m n e) (e + 1) k := by
      unfold FromLeft
      rw [h1, h2]
    rw [if_neg e.succ_ne_zero, if_congr hleft rfl rfl, h1, h2] at heq
    have hmn := add_pos hm hn
    rcases start_spec same hm.le hn.le hmn h fun k' h' =>
      (reach_nonneg same hm.le hn.le hmn h').1 with
      ⟨hfrom, hin, hstart, -⟩ | ⟨hfrom, hin, hstart, -⟩
    · have hnonneg := reach_nonneg same hm.le hn.le hmn hin
      rw [if_pos hfrom] at heq
      obtain ⟨rfl, rfl, rfl⟩ : _ = prevX ∧ _ = prevY ∧ _ = x₀ := by simpa using heq
      exact ⟨hnonneg.1, by omega, Or.inr (Or.inl ⟨rfl, by omega⟩), fun _ => by omega,
        by rw [reach_succ h, hstart], fun e' he => ⟨k - 1, Nat.succ.inj he ▸ ⟨hin, rfl, rfl⟩⟩⟩
    · have hnonneg := reach_nonneg same hm.le hn.le hmn hin
      rw [if_neg hfrom] at heq
      obtain ⟨rfl, rfl, rfl⟩ : _ = prevX ∧ _ = prevY ∧ _ = x₀ := by simpa using heq
      exact ⟨hnonneg.1, by omega, Or.inr (Or.inr ⟨rfl, by omega⟩), fun _ => by omega,
        by rw [reach_succ h, hstart], fun e' he => ⟨k + 1, Nat.succ.inj he ▸ ⟨hin, rfl, rfl⟩⟩⟩

end

/-- **Where the walks meet**, and what the middle is. -/
theorem forwardMeets_eq_some (h : forwardMeets m n kdBackward d k prevX prevY x₀ x = some box) :
    (0 ≤ x ∧ x ≤ m ∧ 0 ≤ x - k ∧ x - k ≤ n) ∧ ((n - m) % 2 ≠ 0 ∧ d ≠ 0)
      ∧ (-((d : ℤ) - 1) ≤ k + (n - m) ∧ k + (n - m) ≤ d - 1 ∧ kdBackward (k + (n - m)) ≤ x)
      ∧ box = if x₀ ≠ x then ⟨x₀, x, x₀ - k, x - k⟩ else ⟨prevX, x, prevY, x - k⟩ := by
  unfold forwardMeets at h
  simp only at h
  split at h
  · exact absurd h nofun
  next hin =>
  split at h
  · exact absurd h nofun
  next hodd =>
  split at h
  · exact absurd h nofun
  next hd =>
  split at h
  swap
  · exact absurd h nofun
  next hmet =>
  refine ⟨by omega, ⟨hodd, by omega⟩, hmet, ?_⟩
  have hy : x₀ - (k + (n - m)) + (n - m) = x₀ - k := by omega
  rw [hy] at h
  split at h
  · next hne => exact (Option.some.inj h).symm.trans (if_pos hne).symm
  · next hne => exact (Option.some.inj h).symm.trans (if_neg hne).symm

/-- A meeting found by the forward search is inside the box and leaves atoms on a side. -/
theorem FoundForward.valid (h : FoundForward same m n kdBackward d box) :
    box.Valid same m n ∧ box.HasAtoms := by
  obtain ⟨k, prevX, prevY, x₀, -, ⟨hx, hy, hstep, hlen, hslide, -⟩, heq⟩ := h
  have hle := slide_le same m n x₀ k
  have hsame : ∀ z, x₀ ≤ z → z < reach same m n d k → same z (z - k) = true := fun z hz hlt =>
    same_of_slide hz (hslide ▸ hlt)
  rw [hslide] at hle
  obtain ⟨hin, ⟨-, hd⟩, -, rfl⟩ := forwardMeets_eq_some heq
  have hlen := hlen hd
  unfold IsStep at hstep
  unfold DiffBox.HasAtoms
  split
  · refine ⟨⟨⟨?_, ?_, ?_⟩, ⟨?_, ?_, ?_⟩, fun _ _ => ⟨?_, fun z hz hlt => ?_⟩⟩, ?_⟩ <;>
      dsimp only at * <;> try omega
    have hz' : z - x₀ + (x₀ - k) = z - k := by omega
    rw [hz']
    exact hsame z hz hlt
  · refine ⟨⟨⟨?_, ?_, ?_⟩, ⟨?_, ?_, ?_⟩, fun h1 h2 => absurd hstep ?_⟩, ?_⟩ <;>
      dsimp only at * <;> omega

section

variable (hm : 0 < m) (hn : 0 < n)

include hm hn

variable (kdBackward) in
/-- **One column of the way from the start**, unless the walks meet. -/
theorem diffDivideMyersForward_spec (hks : ks.Pairwise (fun a b => b < a))
    (hdiag : ∀ k ∈ ks, k ∈ diagonals d)
    (hprev : ∀ e, d = e + 1 → ∀ k : ℤ, (e - k) % 2 = 0 → kdForward k = reach same m n e k) :
    (∀ box, (diffDivideMyersForward same m n kdBackward d ks kdForward).1 = some box →
        FoundForward same m n kdBackward d box)
      ∧ ((diffDivideMyersForward same m n kdBackward d ks kdForward).1 = none → ∀ k,
        (diffDivideMyersForward same m n kdBackward d ks kdForward).2 k
            = (if k ∈ ks ∧ InRange m n d k then reach same m n d k else kdForward k)
          ∧ (k ∈ ks → InRange m n d k → ∃ prevX prevY x₀,
            forwardMeets m n kdBackward d k prevX prevY x₀ (reach same m n d k) = none)) := by
  induction ks generalizing kdForward with
  | nil => exact ⟨fun _ h => (nomatch h),
      fun _ k => ⟨(if_neg fun h => absurd h.1 List.not_mem_nil).symm,
      fun h => absurd h List.not_mem_nil⟩⟩
  | cons k ks ih =>
    obtain ⟨hlt, hks⟩ := List.pairwise_cons.mp hks
    have hk := hdiag k List.mem_cons_self
    have hdiag := fun k hk => hdiag k (List.mem_cons_of_mem _ hk)
    rw [diffDivideMyersForward]
    split
    · next hout =>
      split
      · next hneg =>
        have hnot : ∀ k', k' ∈ k :: ks → ¬InRange m n d k' := by
          intro k' hk' h
          have hin := h.2.2.2
          rcases List.mem_cons.mp hk' with rfl | hk'
          · omega
          · have := hlt k' hk'
            omega
        exact ⟨fun _ h => (nomatch h), fun _ k' => ⟨(if_neg fun h => hnot k' h.1 h.2).symm,
          fun hk' h => absurd h (hnot k' hk')⟩⟩
      · refine ⟨(ih hks hdiag hprev).1, fun hnone k' => ?_⟩
        obtain ⟨hcol, hmeets⟩ := (ih hks hdiag hprev).2 hnone k'
        have hmem : k' ∈ k :: ks → InRange m n d k' → k' ∈ ks := fun hk' h =>
          List.mem_of_ne_of_mem (fun heq => (inRange_iff.mp (heq ▸ h)).2 hout) hk'
        refine ⟨hcol.trans (if_congr ⟨fun h => ⟨List.mem_cons_of_mem _ h.1, h.2⟩,
          fun h => ⟨hmem h.1 h.2, h.2⟩⟩ rfl rfl), fun hk' h => hmeets (hmem hk' h) h⟩
    · next hin =>
      have hin := inRange_iff.mpr ⟨hk, hin⟩
      cases hres : forwardStep n kdForward d k with
      | mk prevX rest =>
        obtain ⟨prevY, x₀⟩ := rest
        have hfrom := forwardStep_spec same hm hn hin hprev hres
        have hreach := hfrom.slide
        dsimp only
        split
        · next box hbox =>
          refine ⟨fun box' h => ?_, fun h => (nomatch h)⟩
          obtain rfl := Option.some.inj h
          exact ⟨k, prevX, prevY, x₀, hin, hfrom, hreach ▸ hbox⟩
        · next hmeet =>
          rw [hreach] at hmeet ⊢
          have hprev' : ∀ e, d = e + 1 → ∀ k' : ℤ, (e - k') % 2 = 0 →
              Function.update kdForward k (reach same m n d k) k' = reach same m n e k' := by
            intro e he k' hk'
            rw [Function.update_of_ne (fun heq => ?_), hprev e he k' hk']
            have := hin.2.2.1
            omega
          refine ⟨(ih hks hdiag hprev').1, fun hnone k' => ?_⟩
          obtain ⟨hcol, hmeets⟩ := (ih hks hdiag hprev').2 hnone k'
          rw [hcol]
          by_cases heq : k' = k
          · subst heq
            rw [if_neg fun h => absurd (hlt k' h.1) (lt_irrefl _), Function.update_self,
              if_pos ⟨List.mem_cons_self, hin⟩]
            exact ⟨rfl, fun _ _ => ⟨prevX, prevY, x₀, hmeet⟩⟩
          · rw [Function.update_of_ne heq]
            exact ⟨if_congr ⟨fun h => ⟨List.mem_cons_of_mem _ h.1, h.2⟩,
              fun h => ⟨List.mem_of_ne_of_mem heq h.1, h.2⟩⟩ rfl rfl,
              fun hk' h => hmeets (List.mem_of_ne_of_mem heq hk') h⟩

end

/-- **Where one comes from** on the way from the end. -/
structure BackwardFrom (same : ℤ → ℤ → Bool) (m n : ℤ) (d : ℕ) (c prevX prevY x₀ : ℤ) : Prop where
  right : prevX ≤ m
  below : prevY ≤ n
  step : IsStep x₀ (x₀ - c + (n - m)) prevX prevY
  length : d ≠ 0 → x₀ + (x₀ - c + (n - m)) < prevX + prevY
  slide : slideUp same c (n - m) x₀ = retreat same m n d c
  zero : d = 0 → c = 0 ∧ x₀ = m
  prev : ∀ e, d = e + 1 → ∃ c', prevX = retreat same m n e c' ∧ prevY = prevX - c' + (n - m)

/-- **The walk from the end notices the other one**, and what it comes with is the middle. -/
def FoundBackward (same : ℤ → ℤ → Bool) (m n : ℤ) (kdForward : Column) (d : ℕ) (box : DiffBox) :
    Prop :=
  ∃ c prevX prevY x₀, InRange n m d c ∧ BackwardFrom same m n d c prevX prevY x₀
    ∧ backwardMeets m n kdForward d c prevX prevY x₀ (retreat same m n d c) = some box

/-- One diagonal of the backward search moves by one step from a neighbour, and stays in the box. -/
theorem backwardStep_step (hkd : d ≠ 0 → ∀ c', c' = c - 1 ∨ c' = c + 1 →
      kdBackward c' ≤ m ∧ kdBackward c' - c' + (n - m) ≤ n)
    (heq : backwardStep m n kdBackward d c = (prevX, prevY, x₀)) (hd : d = 0 → c = 0) :
    prevX ≤ m ∧ prevY ≤ n ∧ IsStep x₀ (x₀ - c + (n - m)) prevX prevY
      ∧ (d ≠ 0 → x₀ + (x₀ - c + (n - m)) < prevX + prevY) ∧ (d = 0 → x₀ = m)
      ∧ (d ≠ 0 → ∃ c', (c' = c - 1 ∨ c' = c + 1) ∧ prevX = kdBackward c'
        ∧ prevY = prevX - c' + (n - m)) := by
  unfold backwardStep at heq
  simp only at heq
  split at heq
  · next hzero =>
    obtain rfl := hd hzero
    obtain ⟨rfl, rfl, rfl⟩ : _ = prevX ∧ _ = prevY ∧ _ = x₀ := by simpa using heq
    exact ⟨le_rfl, by omega, Or.inl ⟨rfl, by omega⟩, fun h => absurd hzero h, fun _ => rfl,
      fun h => absurd hzero h⟩
  · next hd =>
    split at heq
    · have h := hkd hd (c - 1) (Or.inl rfl)
      obtain ⟨rfl, rfl, rfl⟩ : _ = prevX ∧ _ = prevY ∧ _ = x₀ := by simpa using heq
      exact ⟨h.1, h.2, Or.inr (Or.inr ⟨rfl, by omega⟩), fun _ => by omega, fun h => absurd h hd,
        fun _ => ⟨c - 1, Or.inl rfl, rfl, rfl⟩⟩
    · have h := hkd hd (c + 1) (Or.inr rfl)
      obtain ⟨rfl, rfl, rfl⟩ : _ = prevX ∧ _ = prevY ∧ _ = x₀ := by simpa using heq
      exact ⟨h.1, h.2, Or.inr (Or.inl ⟨by omega, by omega⟩), fun _ => by omega,
        fun h => absurd h hd,
        fun _ => ⟨c + 1, Or.inr rfl, rfl, rfl⟩⟩

variable (same) in
/-- **On the way from the end** one is nowhere behind the end. -/
theorem retreat_le (hm : 0 < m) (d : ℕ) (c : ℤ) (hc : -m - 1 ≤ c) :
    retreat same m n d c ≤ m ∧ retreat same m n d c - c + (n - m) ≤ n := by
  induction d generalizing c with
  | zero =>
    rw [retreat]
    split
    · have := slideUp_le same 0 (n - m) m
      omega
    · omega
  | succ d ih =>
    rw [retreat]
    split
    · next hin =>
      cases hres : backwardStep m n (retreat same m n d) (d + 1) c with
      | mk prevX rest =>
        obtain ⟨prevY, x₀⟩ := rest
        have hlow := hin.2.2.2.1
        obtain ⟨hx, hy, hstep, -⟩ := backwardStep_step (fun _ c' _ => ih c' (by omega)) hres
          (fun h => (nomatch h))
        have hle := slideUp_le same c (n - m) x₀
        unfold IsStep at hstep
        dsimp only
        omega
    · omega

variable (same) in
/-- One diagonal of the backward search starts where the better of its two neighbours stopped. -/
theorem backwardStep_spec (hm : 0 < m) (h : InRange n m d c)
    (hprev : ∀ e, d = e + 1 → ∀ c : ℤ, (e - c) % 2 = 0 → kdBackward c = retreat same m n e c)
    (heq : backwardStep m n kdBackward d c = (prevX, prevY, x₀)) :
    BackwardFrom same m n d c prevX prevY x₀ := by
  have hslide := backwardStep_retreat h hprev
  rw [heq] at hslide
  obtain ⟨hlow, hhigh, hpar, hleft, -⟩ := h
  have hd : d = 0 → c = 0 := fun hd => by omega
  -- one was on the diagonals next to this one, if there was a step before
  have hnext : ∀ e, d = e + 1 → ∀ c', c' = c - 1 ∨ c' = c + 1 →
      kdBackward c' = retreat same m n e c' := fun e he c' hc' => hprev e he c' (by omega)
  have hbound : d ≠ 0 → ∀ c', c' = c - 1 ∨ c' = c + 1 →
      kdBackward c' ≤ m ∧ kdBackward c' - c' + (n - m) ≤ n := by
    intro hne c' hc'
    obtain ⟨e, he⟩ := Nat.exists_eq_succ_of_ne_zero hne
    rw [hnext e he c' hc']
    exact retreat_le same hm e c' (by omega)
  obtain ⟨hx, hy, hstep, hlen, hzero, hfrom⟩ := backwardStep_step hbound heq hd
  refine ⟨hx, hy, hstep, hlen, hslide, fun h => ⟨hd h, hzero h⟩, fun e he => ?_⟩
  obtain ⟨c', hc', hprevX, hprevY⟩ := hfrom (by omega)
  exact ⟨c', hprevX.trans (hnext e he c' hc'), hprevY⟩

/-- If all atoms are the same, the way from the end slides up. -/
theorem slideUp_lt (hm : 0 < m) (hend : m ≤ reach same m n 0 0) : slideUp same 0 0 m < m := by
  refine lt_of_le_of_ne (slideUp_le same 0 0 m) fun heq => ?_
  have hmax := slideUp_max same 0 0 m
  rw [heq] at hmax
  rw [reach_zero] at hend
  have hsame := same_of_slide (by omega : 0 ≤ m - 1) (by omega : m - 1 < slide same m n 0 0)
  rw [sub_zero] at hsame
  exact hmax ⟨hm, by omega, by rwa [sub_zero, add_zero]⟩

/-- **Where the walks meet**, and what the middle is. -/
theorem backwardMeets_eq_some (h : backwardMeets m n kdForward d c prevX prevY x₀ x = some box) :
    (0 ≤ x ∧ x ≤ m ∧ 0 ≤ x - c + (n - m) ∧ x - c + (n - m) ≤ n) ∧ (n - m) % 2 = 0
      ∧ (-(d : ℤ) ≤ c - (n - m) ∧ c - (n - m) ≤ d ∧ x ≤ kdForward (c - (n - m)))
      ∧ box = if x₀ ≠ x then ⟨x, x₀, x - c + (n - m), x₀ - c + (n - m)⟩
        else ⟨x, prevX, x - c + (n - m), prevY⟩ := by
  unfold backwardMeets at h
  simp only at h
  split at h
  · exact absurd h nofun
  next hin =>
  split at h
  · exact absurd h nofun
  next heven =>
  split at h
  swap
  · exact absurd h nofun
  next hmet =>
  refine ⟨by omega, not_not.mp heven, hmet, ?_⟩
  have hy : x₀ - (c - (n - m)) = x₀ - c + (n - m) := by omega
  rw [hy] at h
  split at h
  · next hne => exact (Option.some.inj h).symm.trans (if_pos hne).symm
  · next hne => exact (Option.some.inj h).symm.trans (if_neg hne).symm

/-- Where the walks meet at once, the one from the end has slid up. -/
theorem BackwardFrom.ne_zero (hm : 0 < m) (h : BackwardFrom same m n d c prevX prevY x₀)
    (hne : x₀ = retreat same m n d c) (hk : -(d : ℤ) ≤ c - (n - m) ∧ c - (n - m) ≤ d)
    (hmet : d = 0 → c - (n - m) = 0 → x₀ ≤ reach same m n 0 0) : d ≠ 0 := by
  rintro rfl
  obtain ⟨rfl, hstart⟩ := h.zero rfl
  have hdelta : n - m = 0 := by omega
  have hlt := slideUp_lt hm (hstart ▸ hmet rfl (by omega))
  have hslide := h.slide
  rw [hdelta, hstart] at hslide
  omega

/-- A meeting found by the backward search is inside the box and leaves atoms on a side. -/
theorem FoundBackward.valid (hm : 0 < m) (hforward : d = 0 → kdForward 0 = reach same m n 0 0)
    (h : FoundBackward same m n kdForward d box) : box.Valid same m n ∧ box.HasAtoms := by
  obtain ⟨c, prevX, prevY, x₀, -, hfrom, heq⟩ := h
  obtain ⟨hx, hy, hstep, hlen, hslide, -⟩ := id hfrom
  have hle := slideUp_le same c (n - m) x₀
  have hsame : ∀ z, retreat same m n d c ≤ z → z < x₀ → same z (z - c + (n - m)) = true :=
    fun z hz hlt => same_of_slideUp same c (n - m) x₀ (hslide.trans_le hz) hlt
  rw [hslide] at hle
  obtain ⟨hin, -, hmet, rfl⟩ := backwardMeets_eq_some heq
  unfold IsStep at hstep
  unfold DiffBox.HasAtoms
  split
  · refine ⟨⟨⟨?_, ?_, ?_⟩, ⟨?_, ?_, ?_⟩, fun _ _ => ⟨?_, fun z hz hlt => ?_⟩⟩, ?_⟩ <;>
      dsimp only at * <;> try omega
    have hz' : z - retreat same m n d c + (retreat same m n d c - c + (n - m))
      = z - c + (n - m) := by
      omega
    rw [hz']
    exact hsame z hz hlt
  · next hne =>
    have hne := not_not.mp hne
    have hlen := hlen (hfrom.ne_zero hm hne ⟨hmet.1, hmet.2.1⟩ fun hd hk => by
      rw [← hforward hd, ← hk, hne]
      exact hmet.2.2)
    refine ⟨⟨⟨?_, ?_, ?_⟩, ⟨?_, ?_, ?_⟩, fun h1 h2 => absurd hstep ?_⟩, ?_⟩ <;>
      dsimp only at * <;> omega

/-- A cut of the effort limit is inside the box. -/
theorem effortCut_valid (h : effortCut m n kdForward kdBackward d = some box) :
    box.Valid same m n := by
  unfold effortCut at h
  dsimp only at h
  split at h
  · exact absurd h nofun
  · next hin =>
    obtain rfl := Option.some.inj h
    refine ⟨⟨?_, le_rfl, ?_⟩, ⟨?_, le_rfl, ?_⟩, fun hlt => absurd hlt (lt_irrefl _)⟩ <;>
      dsimp only <;>
      omega

section

variable (hm : 0 < m) (hn : 0 < n)

include hm hn

variable (kdForward) in
/-- **One column of the way from the end**, unless the walks meet. -/
theorem diffDivideMyersBackward_spec (hcs : cs.Pairwise (fun a b => b < a))
    (hdiag : ∀ c ∈ cs, c ∈ diagonals d)
    (hprev : ∀ e, d = e + 1 → ∀ c : ℤ, (e - c) % 2 = 0 → kdBackward c = retreat same m n e c) :
    (∀ box, (diffDivideMyersBackward same m n kdForward d cs kdBackward).1 = some box →
        FoundBackward same m n kdForward d box)
      ∧ ((diffDivideMyersBackward same m n kdForward d cs kdBackward).1 = none → ∀ c,
        (diffDivideMyersBackward same m n kdForward d cs kdBackward).2 c
            = (if c ∈ cs ∧ InRange n m d c then retreat same m n d c else kdBackward c)
          ∧ (c ∈ cs → InRange n m d c → ∃ prevX prevY x₀,
            backwardMeets m n kdForward d c prevX prevY x₀ (retreat same m n d c) = none)) := by
  induction cs generalizing kdBackward with
  | nil => exact ⟨fun _ h => (nomatch h),
      fun _ c => ⟨(if_neg fun h => absurd h.1 List.not_mem_nil).symm,
      fun h => absurd h List.not_mem_nil⟩⟩
  | cons c cs ih =>
    obtain ⟨hlt, hcs⟩ := List.pairwise_cons.mp hcs
    have hc := hdiag c List.mem_cons_self
    have hdiag := fun c hc => hdiag c (List.mem_cons_of_mem _ hc)
    rw [diffDivideMyersBackward]
    split
    · next hout =>
      split
      · next hneg =>
        have hnot : ∀ c', c' ∈ c :: cs → ¬InRange n m d c' := by
          intro c' hc' h
          have hin := h.2.2.2
          rcases List.mem_cons.mp hc' with rfl | hc'
          · omega
          · have := hlt c' hc'
            omega
        exact ⟨fun _ h => (nomatch h), fun _ c' => ⟨(if_neg fun h => hnot c' h.1 h.2).symm,
          fun hc' h => absurd h (hnot c' hc')⟩⟩
      · refine ⟨(ih hcs hdiag hprev).1, fun hnone c' => ?_⟩
        obtain ⟨hcol, hmeets⟩ := (ih hcs hdiag hprev).2 hnone c'
        have hmem : c' ∈ c :: cs → InRange n m d c' → c' ∈ cs := fun hc' h =>
          List.mem_of_ne_of_mem (fun heq => (inRange_iff.mp (heq ▸ h)).2 hout) hc'
        refine ⟨hcol.trans (if_congr ⟨fun h => ⟨List.mem_cons_of_mem _ h.1, h.2⟩,
          fun h => ⟨hmem h.1 h.2, h.2⟩⟩ rfl rfl), fun hc' h => hmeets (hmem hc' h) h⟩
    · next hin =>
      have hin := inRange_iff.mpr ⟨hc, hin⟩
      cases hres : backwardStep m n kdBackward d c with
      | mk prevX rest =>
        obtain ⟨prevY, x₀⟩ := rest
        have hfrom := backwardStep_spec same hm hin hprev hres
        have hreach := hfrom.slide
        dsimp only
        split
        · next box hbox =>
          refine ⟨fun box' h => ?_, fun h => (nomatch h)⟩
          obtain rfl := Option.some.inj h
          exact ⟨c, prevX, prevY, x₀, hin, hfrom, hreach ▸ hbox⟩
        · next hmeet =>
          rw [hreach] at hmeet ⊢
          have hprev' : ∀ e, d = e + 1 → ∀ c' : ℤ, (e - c') % 2 = 0 →
              Function.update kdBackward c (retreat same m n d c) c' = retreat same m n e c' := by
            intro e he c' hc'
            rw [Function.update_of_ne (fun heq => ?_), hprev e he c' hc']
            have := hin.2.2.1
            omega
          refine ⟨(ih hcs hdiag hprev').1, fun hnone c' => ?_⟩
          obtain ⟨hcol, hmeets⟩ := (ih hcs hdiag hprev').2 hnone c'
          rw [hcol]
          by_cases heq : c' = c
          · subst heq
            rw [if_neg fun h => absurd (hlt c' h.1) (lt_irrefl _), Function.update_self,
              if_pos ⟨List.mem_cons_self, hin⟩]
            exact ⟨rfl, fun _ _ => ⟨prevX, prevY, x₀, hmeet⟩⟩
          · rw [Function.update_of_ne heq]
            exact ⟨if_congr ⟨fun h => ⟨List.mem_cons_of_mem _ h.1, h.2⟩,
              fun h => ⟨List.mem_of_ne_of_mem heq h.1, h.2⟩⟩ rfl rfl,
              fun hc' h => hmeets (List.mem_of_ne_of_mem heq hc') h⟩

end

/-- **The columns before a step**: the last ones are how far one gets, and where one was
not yet is -1. -/
structure Columns (same : ℤ → ℤ → Bool) (m n : ℤ) (d : ℕ) (kdForward kdBackward : Column) :
    Prop where
  forward : ∀ e, d = e + 1 → ∀ k : ℤ, (e - k) % 2 = 0 → kdForward k = reach same m n e k
  forwardOut : ∀ k, k < -n ∨ k > m ∨ k ≤ -d ∨ k ≥ d → kdForward k = -1
  backward : ∀ e, d = e + 1 → ∀ c : ℤ, (e - c) % 2 = 0 → kdBackward c = retreat same m n e c
  backwardOut : ∀ c, c < -m ∨ c > n ∨ c ≤ -d ∨ c ≥ d → kdBackward c = -1

theorem columns_zero : Columns same m n 0 (fun _ => -1) (fun _ => -1) :=
  ⟨fun _ h => (nomatch h), fun _ _ => rfl, fun _ h => (nomatch h), fun _ _ => rfl⟩

/-- A column goes on with another step. -/
theorem column_next {col col' far : Column} (hfar : ∀ k, ¬InRange m n d k → far k = -1)
    (hout : ∀ k, k < -n ∨ k > m ∨ k ≤ -d ∨ k ≥ d → col k = -1)
    (hcol : ∀ k, col' k = if k ∈ diagonals d ∧ InRange m n d k then far k else col k) :
    (∀ k : ℤ, (d - k) % 2 = 0 → col' k = far k)
      ∧ ∀ k, k < -n ∨ k > m ∨ k ≤ -(d + 1 : ℕ) ∨ k ≥ (d + 1 : ℕ) → col' k = -1 := by
  constructor
  · intro k hk
    rw [hcol k]
    split
    · rfl
    · next hnot =>
      -- on this diagonal one was not yet
      have hnot' : ¬InRange m n d k := fun hin => hnot ⟨(inRange_iff.mp hin).1, hin⟩
      rw [hfar k hnot']
      refine hout k ?_
      unfold InRange at hnot'
      omega
  · intro k hk
    rw [hcol k, if_neg fun hin => ?_]
    · exact hout k (by push_cast at hk; omega)
    · obtain ⟨h1, h2, -, h3, h4⟩ := hin.2
      push_cast at hk
      omega

/-- **The walks have not met** at some step, as far as they are looked at. -/
structure Apart (same : ℤ → ℤ → Bool) (m n : ℤ) (d : ℕ) : Prop where
  forward : (n - m) % 2 ≠ 0 → ∀ e, d = e + 1 → ∀ k, InRange m n d k → InRange n m e (k + (n - m)) →
    reach same m n d k ≤ m → reach same m n d k - k ≤ n →
    reach same m n d k < retreat same m n e (k + (n - m))
  backward : (n - m) % 2 = 0 → ∀ c, InRange n m d c → InRange m n d (c - (n - m)) →
    0 ≤ retreat same m n d c → 0 ≤ retreat same m n d c - c + (n - m) →
    reach same m n d (c - (n - m)) < retreat same m n d c

section

variable (hm : 0 < m) (hn : 0 < n)

include hm hn

/-- The walks have not met if none of them has noticed it. -/
theorem apart_of_meets
    (hbackward : ∀ e, d = e + 1 → ∀ c : ℤ, (e - c) % 2 = 0 → kdBackward c = retreat same m n e c)
    (hforward : ∀ k : ℤ, (d - k) % 2 = 0 → kdForward k = reach same m n d k)
    (hfwd : ∀ k, InRange m n d k → ∃ prevX prevY x₀,
      forwardMeets m n kdBackward d k prevX prevY x₀ (reach same m n d k) = none)
    (hbwd : ∀ c, InRange n m d c → ∃ prevX prevY x₀,
      backwardMeets m n kdForward d c prevX prevY x₀ (retreat same m n d c) = none) :
    Apart same m n d := by
  constructor
  · intro hodd e he k hin hin' hx hy
    obtain ⟨prevX, prevY, x₀, hnone⟩ := hfwd k hin
    have hnonneg := reach_nonneg same hm.le hn.le (add_pos hm hn) hin
    obtain ⟨h1, h2, hpar, -, -⟩ := hin'
    unfold forwardMeets at hnone
    simp only at hnone
    rw [if_neg (by omega), if_neg hodd, if_neg (by omega), hbackward e he _ hpar] at hnone
    by_contra hge
    rw [if_pos (by omega)] at hnone
    split at hnone <;> exact nomatch hnone
  · intro heven c hin hin' hx hy
    obtain ⟨prevX, prevY, x₀, hnone⟩ := hbwd c hin
    have hlow := hin.2.2.2.1
    have hle : retreat same m n d c ≤ m ∧ retreat same m n d c - c + (n - m) ≤ n :=
      retreat_le same hm d c (by omega)
    obtain ⟨h1, h2, hpar, -, -⟩ := hin'
    unfold backwardMeets at hnone
    simp only at hnone
    rw [if_neg (by omega), if_neg (not_not.mpr heven), hforward _ hpar] at hnone
    by_contra hge
    rw [if_pos (by omega)] at hnone
    split at hnone <;> exact nomatch hnone

/-- **The walks meet** at some step, and not before. -/
def Meet (same : ℤ → ℤ → Bool) (m n : ℤ) (d : ℕ) (box : DiffBox) : Prop :=
  (∀ e < d, Apart same m n e)
    ∧ ((∃ kdBackward : Column, (∀ e, d = e + 1 → ∀ c : ℤ, (e - c) % 2 = 0 →
        kdBackward c = retreat same m n e c) ∧ FoundForward same m n kdBackward d box)
      ∨ ∃ kdForward : Column, (∀ k : ℤ, (d - k) % 2 = 0 → kdForward k = reach same m n d k)
        ∧ FoundBackward same m n kdForward d box)

omit hn in
theorem Meet.valid (h : Meet same m n d box) : box.Valid same m n ∧ box.HasAtoms := by
  obtain ⟨-, ⟨kdBackward, -, h⟩ | ⟨kdForward, hforward, h⟩⟩ := h
  · exact h.valid
  · exact h.valid hm fun hd => by rw [hforward 0 (by omega), hd]

/-- **Where the walks end**: they meet, or the graph is divided before they have met. -/
theorem divideMidpoint_spec {maxEffort fuel : ℕ} (hcols : Columns same m n d kdForward kdBackward)
    (hapart : ∀ e < d, Apart same m n e)
    (h : divideMidpoint same m n maxEffort fuel d kdForward kdBackward = some box) :
    (∃ e, Meet same m n e box) ∨ ∃ e kdForward kdBackward, maxEffort < e
      ∧ (∀ k : ℤ, (e - k) % 2 = 0 → kdForward k = reach same m n e k)
      ∧ (∀ c : ℤ, (e - c) % 2 = 0 → kdBackward c = retreat same m n e c)
      ∧ (∀ e' ≤ e, Apart same m n e') ∧ effortCut m n kdForward kdBackward e = some box := by
  induction fuel generalizing d kdForward kdBackward with
  | zero => exact absurd h nofun
  | succ fuel ih =>
    obtain ⟨hprev, hout, hprev', hout'⟩ := hcols
    obtain ⟨hvalid, hcol⟩ := diffDivideMyersForward_spec kdBackward hm hn
      (pairwise_diagonals d) (fun _ hk => hk) hprev
    rw [divideMidpoint] at h
    cases hfwd : diffDivideMyersForward same m n kdBackward d (diagonals d) kdForward with
    | mk found kdForward' =>
      rw [hfwd] at h hvalid hcol
      cases found with
      | some box' =>
        obtain rfl := Option.some.inj h
        exact Or.inl ⟨d, hapart, Or.inl ⟨kdBackward, hprev', hvalid _ rfl⟩⟩
      | none =>
        have hcol := hcol rfl
        dsimp only at hcol
        obtain ⟨hnext, hnextOut⟩ := column_next
          (fun k hk => reach_of_not_inRange hk hm.le hn.le) hout (fun k => (hcol k).1)
        obtain ⟨hvalid', hcol'⟩ := diffDivideMyersBackward_spec kdForward' hm hn
          (pairwise_diagonals d) (fun _ hc => hc) hprev'
        dsimp only at h
        cases hbwd : diffDivideMyersBackward same m n kdForward' d (diagonals d) kdBackward with
        | mk found kdBackward' =>
          rw [hbwd] at h hvalid' hcol'
          cases found with
          | some box' =>
            obtain rfl := Option.some.inj h
            exact Or.inl ⟨d, hapart, Or.inr ⟨kdForward', hnext, hvalid' _ rfl⟩⟩
          | none =>
            have hcol' := hcol' rfl
            dsimp only at hcol'
            obtain ⟨hnext', hnextOut'⟩ := column_next
              (fun c hc => retreat_of_not_inRange hc hm.le hn.le) hout' (fun c => (hcol' c).1)
            have hapart' : ∀ e ≤ d, Apart same m n e := by
              intro e he
              rcases he.lt_or_eq with he | rfl
              · exact hapart e he
              · exact apart_of_meets hm hn hprev' hnext
                  (fun k hk => (hcol k).2 (inRange_iff.mp hk).1 hk)
                  fun c hc => (hcol' c).2 (inRange_iff.mp hc).1 hc
            dsimp only at h
            split at h
            · next hcut =>
              exact Or.inr ⟨d, kdForward', kdBackward', hcut, hnext, hnext', hapart', h⟩
            · exact ih ⟨fun e he => Nat.succ.inj he ▸ hnext, hnextOut,
                fun e he => Nat.succ.inj he ▸ hnext', hnextOut'⟩
                (fun e he => hapart' e (Nat.le_of_lt_succ he)) h

/-- A midpoint is inside the box, whichever way it was found. -/
theorem divideMidpoint_valid {maxEffort fuel : ℕ}
    (h : divideMidpoint same m n maxEffort fuel 0 (fun _ => -1) (fun _ => -1) = some box) :
    box.Valid same m n := by
  rcases divideMidpoint_spec hm hn columns_zero (fun _ h => absurd h (Nat.not_lt_zero _)) h with
    ⟨e, hmeet⟩ | ⟨e, kdForward, kdBackward, -, -, -, -, hcut⟩
  · exact (hmeet.valid hm).1
  · exact effortCut_valid hcut

end

end Divide

/-- **`diff_algo_myers_divide` divides what it is given**, or leaves it alone. -/
theorem diffAlgoMyersDivide_spec {root : DiffRoot} {state : DiffState} (hleft : state.left.len ≠ 0)
    (hright : state.right.len ≠ 0) (hat : state.At root state.left.start state.right.start) :
    diffAlgoMyersDivide root state = (.useDiffAlgoFallback, state)
      ∨ ∃ state', diffAlgoMyersDivide root state = (.ok, state')
        ∧ state'.At root (state.left.start + state.left.len)
          (state.right.start + state.right.len) := by
  unfold diffAlgoMyersDivide
  dsimp only
  split
  · exact Or.inl rfl
  · next box hbox =>
    have hvalid := divideMidpoint_valid (by omega) (by omega) hbox
    obtain ⟨⟨hl0, hl1, hl2⟩, ⟨hr0, hr1, hr2⟩, hslide⟩ := hvalid
    refine Or.inr ⟨_, rfl, ?_⟩
    have hbefore := hat.addSection box.leftStart.toNat box.rightStart.toNat
    generalize diffStateAddSection state state.left.start box.leftStart.toNat state.right.start
      box.rightStart.toNat = before at hbefore ⊢
    have hmiddle : DiffState.At root (if box.leftEnd.toNat > box.leftStart.toNat
          ∨ box.rightEnd.toNat > box.rightStart.toNat then
        diffStateAddChunk before ⟨true, state.left.start + box.leftStart.toNat,
          box.leftEnd.toNat - box.leftStart.toNat, state.right.start + box.rightStart.toNat,
          box.rightEnd.toNat - box.rightStart.toNat⟩
        else before) (state.left.start + box.leftEnd.toNat)
          (state.right.start + box.rightEnd.toNat) := by
      split
      · next hne =>
        have hl : state.left.start + box.leftStart.toNat + (box.leftEnd.toNat - box.leftStart.toNat)
            = state.left.start + box.leftEnd.toNat := by omega
        have hr : state.right.start + box.rightStart.toNat
            + (box.rightEnd.toNat - box.rightStart.toNat)
            = state.right.start + box.rightEnd.toNat := by omega
        rw [← hl, ← hr]
        refine hbefore.add fun _ => ⟨rfl, by dsimp only; omega, fun h1 h2 => ?_⟩
        dsimp only at h1 h2 ⊢
        obtain ⟨hlen, hsame⟩ := hslide (by omega) (by omega)
        refine ⟨by omega, fun i hi => ?_⟩
        have h := hsame (box.leftStart + i) (by omega) (by omega)
        rw [DiffState.same] at h
        have hx : state.left.start + (box.leftStart + i).toNat
            = state.left.start + box.leftStart.toNat + i := by omega
        have hy : state.right.start + (box.leftStart + i - box.leftStart + box.rightStart).toNat
            = state.right.start + box.rightStart.toNat + i := by omega
        rwa [hx, hy] at h
      · have hl : box.leftEnd.toNat = box.leftStart.toNat := by omega
        have hr : box.rightEnd.toNat = box.rightStart.toNat := by omega
        rw [hl, hr]
        exact hbefore
    have hbehind := hmiddle.addSection (state.left.len - box.leftEnd.toNat)
      (state.right.len - box.rightEnd.toNat)
    have hl : state.left.start + box.leftEnd.toNat + (state.left.len - box.leftEnd.toNat)
        = state.left.start + state.left.len := by omega
    have hr : state.right.start + box.rightEnd.toNat + (state.right.len - box.rightEnd.toNat)
        = state.right.start + state.right.len := by omega
    rwa [hl, hr] at hbehind

end Got

import Mathlib.Order.Bounds.Basic
import Got.Lib.EditGraph

/-!
# The edit distance

A walk through the edit graph takes a step for each element that is left out, and none
where it slides. The fewest steps that take one to the end of the graph are the edit
distance, and what one slides along is then a longest common subsequence
(`isLeast_walk`). Its length is computed row by row, as `lcs`.

On a diagonal no walk gets farther with as many steps than the one that goes on from
where it got farthest (`Walk.le_reach`), so that one gets to the end first.
-/

namespace EditGraph

/-- The graph turned around. -/
def mirror (same : ℤ → ℤ → Bool) (m n : ℤ) : ℤ → ℤ → Bool := fun i j => same (m - 1 - i) (n - 1 - j)

/-- **A walk**, from one position to another, with some steps. -/
inductive Walk (same : ℤ → ℤ → Bool) (x y : ℤ) : ℕ → ℤ → ℤ → Prop
  | refl : Walk same x y 0 x y
  | right {d : ℕ} {x' y' : ℤ} (h : Walk same x y d x' y') : Walk same x y (d + 1) (x' + 1) y'
  | down {d : ℕ} {x' y' : ℤ} (h : Walk same x y d x' y') : Walk same x y (d + 1) x' (y' + 1)
  | slide {d : ℕ} {x' y' : ℤ} (h : Walk same x y d x' y') (hsame : same x' y' = true) :
      Walk same x y d (x' + 1) (y' + 1)

variable {same : ℤ → ℤ → Bool} {m n x y x' y' x'' y'' : ℤ} {d e : ℕ}

namespace Walk

/-- Two walks, one behind the other, make a walk of as many steps as both. -/
theorem trans (h : Walk same x y d x' y') (h' : Walk same x' y' e x'' y'') :
    Walk same x y (d + e) x'' y'' := by
  induction h' with
  | refl => exact h
  | right _ ih => exact ih.right
  | down _ ih => exact ih.down
  | slide _ hsame ih => exact ih.slide hsame

/-- **Where one gets** with some steps: not back, and as many diagonals away. -/
theorem bounds (h : Walk same x y d x' y') :
    x ≤ x' ∧ y ≤ y' ∧ -(d : ℤ) ≤ (x' - y') - (x - y) ∧ (x' - y') - (x - y) ≤ d
      ∧ (d - ((x' - y') - (x - y))) % 2 = 0 := by
  induction h with
  | refl => omega
  | right _ ih => push_cast; omega
  | down _ ih => push_cast; omega
  | slide _ _ ih => omega

/-- One can walk around all elements. -/
theorem around (same : ℤ → ℤ → Bool) (x y : ℤ) (i j : ℕ) :
    Walk same x y (i + j) (x + i) (y + j) := by
  have hcast : ∀ (z : ℤ) (i : ℕ), z + (i + 1 : ℕ) = z + i + 1 := by omega
  induction j with
  | zero =>
    induction i with
    | zero => simpa using (refl : Walk same x y 0 x y)
    | succ i ih =>
      rw [hcast, Nat.add_right_comm]
      exact ih.right
  | succ j ih =>
    rw [hcast]
    exact ih.down

/-- One slides along elements that are the same. -/
theorem slides {len : ℕ} (h : ∀ i : ℕ, i < len → same (x + i) (y + i) = true) :
    Walk same x y 0 (x + len) (y + len) := by
  induction len with
  | zero => simpa using (refl : Walk same x y 0 x y)
  | succ len ih =>
    have hx : ∀ z : ℤ, z + (len + 1 : ℕ) = z + len + 1 := by omega
    rw [hx, hx]
    exact (ih fun i hi => h i (Nat.lt_succ_of_lt hi)).slide (h len (Nat.lt_succ_self len))

/-- **A walk can be cut** after any of its steps. -/
theorem split (h : Walk same x y (d + e) x'' y'') :
    ∃ x' y', Walk same x y d x' y' ∧ Walk same x' y' e x'' y'' := by
  generalize htotal : d + e = total at h
  induction h generalizing d e with
  | refl =>
    obtain ⟨rfl, rfl⟩ := Nat.add_eq_zero_iff.mp htotal
    exact ⟨x, y, refl, refl⟩
  | @right t x₁ y₁ h ih =>
    cases e with
    | zero =>
      obtain rfl : d = t + 1 := htotal
      exact ⟨_, _, h.right, refl⟩
    | succ e =>
      obtain ⟨x', y', hbefore, hbehind⟩ := ih (Nat.succ.inj htotal)
      exact ⟨x', y', hbefore, hbehind.right⟩
  | @down t x₁ y₁ h ih =>
    cases e with
    | zero =>
      obtain rfl : d = t + 1 := htotal
      exact ⟨_, _, h.down, refl⟩
    | succ e =>
      obtain ⟨x', y', hbefore, hbehind⟩ := ih (Nat.succ.inj htotal)
      exact ⟨x', y', hbefore, hbehind.down⟩
  | slide h hsame ih =>
    obtain ⟨x', y', hbefore, hbehind⟩ := ih htotal
    exact ⟨x', y', hbefore, hbehind.slide hsame⟩

/-- The graph can be moved. -/
theorem shift (h : Walk same x y d x' y') (a b : ℤ) :
    Walk (fun i j => same (i + a) (j + b)) (x - a) (y - b) d (x' - a) (y' - b) := by
  have hnext : ∀ z a : ℤ, z + 1 - a = z - a + 1 := by omega
  induction h with
  | refl => exact refl
  | right _ ih =>
    rw [hnext]
    exact ih.right
  | down _ ih =>
    rw [hnext]
    exact ih.down
  | slide _ hsame ih =>
    rw [hnext, hnext]
    exact ih.slide (by rwa [sub_add_cancel, sub_add_cancel])

/-- **Backwards**, a walk is one through the graph that is turned around. -/
theorem mirror (h : Walk same x y d x' y') (m n : ℤ) :
    Walk (EditGraph.mirror same m n) (m - x') (n - y') d (m - x) (n - y) := by
  have hnext : ∀ m z : ℤ, m - (z + 1) + 1 = m - z := by omega
  induction h with
  | refl => exact refl
  | @right d x' y' h ih =>
    have hstep : Walk (EditGraph.mirror same m n) (m - (x' + 1)) (n - y') 1 (m - x') (n - y') :=
      hnext m x' ▸ refl.right
    rw [Nat.add_comm]
    exact hstep.trans ih
  | @down d x' y' h ih =>
    have hstep : Walk (EditGraph.mirror same m n) (m - x') (n - (y' + 1)) 1 (m - x') (n - y') :=
      hnext n y' ▸ refl.down
    rw [Nat.add_comm]
    exact hstep.trans ih
  | @slide d x' y' h hsame ih =>
    have hslide : EditGraph.mirror same m n (m - (x' + 1)) (n - (y' + 1)) = true := by
      have hback : ∀ m z : ℤ, m - 1 - (m - (z + 1)) = z := by omega
      rw [EditGraph.mirror, hback, hback, hsame]
    have hstep : Walk (EditGraph.mirror same m n) (m - (x' + 1)) (n - (y' + 1)) 0
        (m - (x' + 1) + 1) (n - (y' + 1) + 1) := refl.slide hslide
    rw [hnext, hnext] at hstep
    have hwalk := hstep.trans ih
    rwa [Nat.zero_add] at hwalk

/-- On which diagonal one can be. -/
theorem inRange (h : Walk same 0 0 d x y) (hx : x ≤ m) (hy : y ≤ n) : InRange m n d (x - y) := by
  obtain ⟨h0, h0', h1, h2, h3⟩ := h.bounds
  exact ⟨by omega, by omega, by omega, by omega, by omega⟩

/-- **No walk gets farther** on a diagonal than the one that goes on from where it got farthest. -/
theorem le_reach (hm : 0 ≤ m) (hn : 0 ≤ n) (hmn : 0 < m + n) (h : Walk same 0 0 d x y)
    (hx : x ≤ m) (hy : y ≤ n) : x ≤ reach same m n d (x - y) := by
  induction h with
  | refl =>
    rw [sub_self, reach_zero]
    exact slide_le same m n 0 0
  | @right d x y h ih =>
    have ih := ih (by omega) hy
    have hge := (start_ge same hm hn hmn (h.right.inRange hx hy)).1
    have hk : x + 1 - y - 1 = x - y := by omega
    rw [hk] at hge
    omega
  | @down d x y h ih =>
    have ih := ih hx (by omega)
    have hge := (start_ge same hm hn hmn (h.down.inRange hx hy)).2
    have hk : x - (y + 1) + 1 = x - y := by omega
    rw [hk] at hge
    omega
  | @slide d x y h hsame ih =>
    have ih := ih (by omega) (by omega)
    have hmax := reach_max same (h.inRange (by omega : x ≤ m) (by omega : y ≤ n))
    have hk : x + 1 - (y + 1) = x - y := by omega
    rw [hk]
    refine lt_of_le_of_ne ih fun heq => hmax ?_
    rw [← heq]
    exact ⟨by omega, by omega, by rwa [sub_sub_cancel]⟩

/-- **The walk that goes on from where it got farthest** is at the end first. -/
theorem le_of_reach (hm : 0 ≤ m) (hn : 0 ≤ n) {D : ℕ} (hmin : ∀ e < D, reach same m n e (m - n) ≠ m)
    (h : Walk same 0 0 d m n) : D ≤ d := by
  obtain ⟨e, he, heq⟩ : ∃ e ≤ d, reach same m n e (m - n) = m := by
    rcases le_or_gt (m + n) 0 with hmn | hmn
    · exact ⟨0, Nat.zero_le d, reach_zero_end same hm hn hmn⟩
    · exact exists_reach_eq_of_le same hm hn (h.le_reach hm hn hmn le_rfl le_rfl)
  exact (Nat.le_of_not_lt fun hlt => hmin e hlt heq).trans he

end Walk

theorem mirror_mirror (same : ℤ → ℤ → Bool) (m n : ℤ) : mirror (mirror same m n) m n = same := by
  funext i j
  unfold mirror
  rw [sub_sub_cancel, sub_sub_cancel]

variable (same) in
/-- **One gets there** with as many steps. -/
theorem walk_reach (hm : 0 ≤ m) (hn : 0 ≤ n) (hmn : 0 < m + n) {k : ℤ} (h : InRange m n d k) :
    Walk same 0 0 d (reach same m n d k) (reach same m n d k - k) := by
  have hslide : ∀ x k, Walk same x (x - k) 0 (slide same m n x k) (slide same m n x k - k) := by
    intro x k
    obtain ⟨len, hlen⟩ := Int.le.dest (slide_le same m n x k)
    have hwalk : Walk same x (x - k) 0 (x + len) (x - k + len) := Walk.slides fun i hi => by
      have hsame := same_of_slide (by omega : x ≤ x + i) (by omega : x + i < slide same m n x k)
      rwa [add_sub_right_comm] at hsame
    rwa [← add_sub_right_comm, hlen] at hwalk
  induction d generalizing k with
  | zero =>
    obtain rfl : k = 0 := by
      obtain ⟨h1, h2, -⟩ := h
      push_cast at h1 h2
      omega
    rw [reach_zero]
    exact hslide 0 0
  | succ d ih =>
    have hstart : Walk same 0 0 (d + 1) (start n (reach same m n d) (d + 1) k)
        (start n (reach same m n d) (d + 1) k - k) := by
      rcases start_spec same hm hn hmn h (fun k' h' => (reach_nonneg same hm hn hmn h').1) with
        ⟨-, hin, heq, -⟩ | ⟨-, hin, heq, -⟩
      · have hk : reach same m n d (k - 1) + 1 - k = reach same m n d (k - 1) - (k - 1) := by omega
        rw [heq, hk]
        exact (ih hin).right
      · have hk : reach same m n d (k + 1) - k = reach same m n d (k + 1) - (k + 1) + 1 := by omega
        rw [heq, hk]
        exact (ih hin).down
    rw [reach_succ h]
    exact hstart.trans (hslide _ k)

/-! ## Longest common subsequences -/

section Lcs

/-- One row, given the one before it. -/
def lcsRow (same : ℕ → ℕ → Bool) (i : ℕ) (prev : ℕ → ℕ) : ℕ → ℕ
  | 0 => 0
  | j + 1 => if same i j then prev j + 1 else max (prev (j + 1)) (lcsRow same i prev j)

/-- **The length of a longest common subsequence** of as many elements of either sequence. -/
def lcs (same : ℕ → ℕ → Bool) : ℕ → ℕ → ℕ
  | 0, _ => 0
  | i + 1, j => lcsRow same i (lcs same i) j

/-- **A common subsequence**: the places of its elements in both sequences. -/
structure IsCommon (same : ℕ → ℕ → Bool) (m n : ℕ) (pairs : List (ℕ × ℕ)) : Prop where
  ordered : pairs.Pairwise fun p q => p.1 < q.1 ∧ p.2 < q.2
  inside : ∀ p ∈ pairs, p.1 < m ∧ p.2 < n
  same : ∀ p ∈ pairs, same p.1 p.2 = true

variable (same : ℕ → ℕ → Bool) (i j : ℕ)

theorem lcs_zero_right : lcs same i 0 = 0 := by
  cases i <;> rfl

theorem lcs_succ : lcs same (i + 1) (j + 1)
    = if same i j then lcs same i j + 1 else max (lcs same i (j + 1)) (lcs same (i + 1) j) := rfl

/-- **Another element** makes it longer by one at most. -/
theorem lcs_step : (lcs same i j ≤ lcs same i (j + 1) ∧ lcs same i (j + 1) ≤ lcs same i j + 1)
    ∧ lcs same i j ≤ lcs same (i + 1) j ∧ lcs same (i + 1) j ≤ lcs same i j + 1 := by
  induction i generalizing j with
  | zero =>
    have hzero : ∀ j, lcs same 0 j = 0 := fun _ => rfl
    refine ⟨by rw [hzero, hzero]; omega, ?_⟩
    induction j with
    | zero =>
      rw [lcs_zero_right, lcs_zero_right]
      omega
    | succ j ih =>
      rw [lcs_succ]
      simp only [hzero] at ih ⊢
      split <;> omega
  | succ i ih =>
    have hcol : ∀ j, lcs same (i + 1) j ≤ lcs same (i + 1) (j + 1)
        ∧ lcs same (i + 1) (j + 1) ≤ lcs same (i + 1) j + 1 := by
      intro j
      have := ih j
      rw [lcs_succ]
      split <;> omega
    refine ⟨hcol j, ?_⟩
    induction j with
    | zero =>
      rw [lcs_zero_right, lcs_zero_right]
      omega
    | succ j ihj =>
      have := hcol j
      rw [lcs_succ same (i + 1) j]
      split <;> omega

/-- As many elements more, of both, make it longer by as many at most. -/
theorem lcs_add_le (t : ℕ) : lcs same (i + t) (j + t) ≤ lcs same i j + t := by
  induction t with
  | zero => exact le_rfl
  | succ t ih =>
    have := lcs_step same (i + t) (j + t)
    rw [← Nat.add_assoc, ← Nat.add_assoc, lcs_succ]
    split <;> omega

theorem IsCommon.mono {pairs : List (ℕ × ℕ)} {same : ℕ → ℕ → Bool} {i j i' j' : ℕ}
    (h : IsCommon same i j pairs) (hi : i ≤ i') (hj : j ≤ j') : IsCommon same i' j' pairs :=
  ⟨h.ordered, fun p hp => ⟨(h.inside p hp).1.trans_le hi, (h.inside p hp).2.trans_le hj⟩, h.same⟩

/-- **There is a common subsequence of this length.** -/
theorem exists_isCommon : ∃ pairs, IsCommon same i j pairs ∧ pairs.length = lcs same i j := by
  induction i generalizing j with
  | zero => exact ⟨[], ⟨List.Pairwise.nil, by simp, by simp⟩, rfl⟩
  | succ i ih =>
    induction j with
    | zero => exact ⟨[], ⟨List.Pairwise.nil, by simp, by simp⟩, rfl⟩
    | succ j ihj =>
      rw [lcs_succ]
      split
      · next hsame =>
        obtain ⟨pairs, ⟨hord, hin, hall⟩, hlen⟩ := ih j
        refine ⟨pairs ++ [(i, j)], ⟨?_, ?_, ?_⟩, by rw [List.length_append, hlen]; rfl⟩
        · refine List.pairwise_append.mpr ⟨hord, List.pairwise_singleton _ _, fun p hp q hq => ?_⟩
          rw [List.mem_singleton.mp hq]
          exact hin p hp
        · intro p hp
          rcases List.mem_append.mp hp with hp | hp
          · exact ⟨Nat.lt_succ_of_lt (hin p hp).1, Nat.lt_succ_of_lt (hin p hp).2⟩
          · rw [List.mem_singleton.mp hp]
            exact ⟨Nat.lt_succ_self i, Nat.lt_succ_self j⟩
        · intro p hp
          rcases List.mem_append.mp hp with hp | hp
          · exact hall p hp
          · rw [List.mem_singleton.mp hp]
            exact hsame
      · rcases le_total (lcs same i (j + 1)) (lcs same (i + 1) j) with hle | hle
        · obtain ⟨pairs, hcommon, hlen⟩ := ihj
          exact ⟨pairs, hcommon.mono le_rfl (Nat.le_succ j), by rw [hlen, max_eq_right hle]⟩
        · obtain ⟨pairs, hcommon, hlen⟩ := ih (j + 1)
          exact ⟨pairs, hcommon.mono (Nat.le_succ i) le_rfl, by rw [hlen, max_eq_left hle]⟩

end Lcs

/-! ## Walks and subsequences -/

section

variable {same : ℤ → ℤ → Bool}

/-- **A common subsequence is walked along**, with a step for each other element. -/
theorem exists_walk_of_pairs {pairs : List (ℕ × ℕ)} {i j i' j' : ℕ} (hi : i ≤ i') (hj : j ≤ j')
    (hord : pairs.Pairwise fun p q => p.1 < q.1 ∧ p.2 < q.2)
    (hin : ∀ p ∈ pairs, i ≤ p.1 ∧ p.1 < i' ∧ j ≤ p.2 ∧ p.2 < j')
    (hsame : ∀ p ∈ pairs, same p.1 p.2 = true) :
    ∃ d, Walk same i j d i' j' ∧ (i' - i) + (j' - j) = d + 2 * pairs.length := by
  induction pairs generalizing i j with
  | nil =>
    obtain ⟨a, rfl⟩ := Nat.exists_eq_add_of_le hi
    obtain ⟨b, rfl⟩ := Nat.exists_eq_add_of_le hj
    refine ⟨a + b, ?_, ?_⟩
    · rw [Nat.cast_add, Nat.cast_add]
      exact Walk.around same i j a b
    · rw [List.length_nil]
      omega
  | cons p pairs ih =>
    obtain ⟨hlt, hord⟩ := List.pairwise_cons.mp hord
    obtain ⟨h1, h2, h3, h4⟩ := hin p List.mem_cons_self
    obtain ⟨d, hwalk, hlen⟩ := @ih (p.1 + 1) (p.2 + 1) (by omega) (by omega) hord
      (fun q hq => by
        have := hlt q hq
        have := hin q (List.mem_cons_of_mem p hq)
        omega)
      fun q hq => hsame q (List.mem_cons_of_mem p hq)
    obtain ⟨a, ha⟩ := Nat.exists_eq_add_of_le h1
    obtain ⟨b, hb⟩ := Nat.exists_eq_add_of_le h3
    have hstart := Walk.around same i j a b
    rw [← Nat.cast_add, ← Nat.cast_add, ← ha, ← hb] at hstart
    refine ⟨a + b + d, (hstart.slide (hsame p List.mem_cons_self)).trans ?_, ?_⟩
    · rw [Nat.cast_add, Nat.cast_add] at hwalk
      exact hwalk
    · rw [List.length_cons]
      omega

/-- **No walk slides farther** than along a longest common subsequence. -/
theorem Walk.add_le {d : ℕ} {x y : ℤ} (h : Walk same 0 0 d x y) :
    x.toNat + y.toNat ≤ d + 2 * lcs (fun i j => same i j) x.toNat y.toNat := by
  induction h with
  | refl => omega
  | @right d x y h ih =>
    have hx := h.bounds.1
    have hstep := (lcs_step (fun i j => same i j) x.toNat y.toNat).2
    have hcast : (x + 1).toNat = x.toNat + 1 := by omega
    rw [hcast]
    omega
  | @down d x y h ih =>
    have hy := h.bounds.2.1
    have hstep := (lcs_step (fun i j => same i j) x.toNat y.toNat).1
    have hcast : (y + 1).toNat = y.toNat + 1 := by omega
    rw [hcast]
    omega
  | @slide d x y h hsame ih =>
    obtain ⟨hx, hy, -⟩ := h.bounds
    have hcast : ∀ z : ℤ, 0 ≤ z → (z + 1).toNat = z.toNat + 1 := by omega
    rw [hcast x hx, hcast y hy, lcs_succ, if_pos]
    · omega
    · rwa [Int.toNat_of_nonneg hx, Int.toNat_of_nonneg hy]

/-- **The edit distance** is what is left of both sequences besides a longest common subsequence. -/
theorem isLeast_walk (same : ℤ → ℤ → Bool) (m n : ℕ) :
    IsLeast {d | Walk same 0 0 d m n} (m + n - 2 * lcs (fun i j => same i j) m n) := by
  constructor
  · obtain ⟨pairs, hcommon, hlen⟩ := exists_isCommon (fun i j => same i j) m n
    obtain ⟨d, hwalk, hd⟩ := exists_walk_of_pairs (Nat.zero_le m) (Nat.zero_le n) hcommon.ordered
      (fun p hp => ⟨Nat.zero_le _, (hcommon.inside p hp).1, Nat.zero_le _, (hcommon.inside p hp).2⟩)
      hcommon.same
    have heq : m + n - 2 * lcs (fun i j => same i j) m n = d := by omega
    rw [heq]
    exact hwalk
  · intro d hwalk
    have hle : m + n ≤ d + 2 * lcs (fun i j => same i j) m n := Walk.add_le hwalk
    omega

/-- **Before, on the same diagonal**, one can be with as many steps. -/
theorem Walk.exists_before {d : ℕ} {x y : ℤ} (h : Walk same 0 0 d x y) {t : ℕ} (hx : t ≤ x)
    (hy : t ≤ y) : ∃ e ≤ d, Walk same 0 0 e (x - t) (y - t) := by
  obtain ⟨i, hi⟩ := Int.eq_ofNat_of_zero_le (Int.sub_nonneg_of_le hx)
  obtain ⟨j, hj⟩ := Int.eq_ofNat_of_zero_le (Int.sub_nonneg_of_le hy)
  obtain ⟨hwalk, -⟩ := isLeast_walk same i j
  have hle := h.add_le
  have hxt : x.toNat = i + t := by omega
  have hyt : y.toNat = j + t := by omega
  rw [hxt, hyt] at hle
  have hlcs := lcs_add_le (fun i j => same i j) i j t
  rw [hi, hj]
  exact ⟨_, by omega, hwalk⟩

/-- **Behind, on the same diagonal**, there are not more steps to the end. -/
theorem Walk.exists_behind {d : ℕ} {x y m n : ℤ} (h : Walk same x y d m n) {t : ℕ} (hx : x + t ≤ m)
    (hy : y + t ≤ n) : ∃ e ≤ d, Walk same (x + t) (y + t) e m n := by
  have hmirror := h.mirror m n
  rw [sub_self, sub_self] at hmirror
  obtain ⟨e, he, hwalk⟩ := hmirror.exists_before (t := t) (by omega) (by omega)
  have hback := hwalk.mirror m n
  rw [mirror_mirror, sub_zero, sub_zero, sub_sub, sub_sub, sub_sub_cancel, sub_sub_cancel] at hback
  exact ⟨e, he, hback⟩

end

end EditGraph

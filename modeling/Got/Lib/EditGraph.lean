import Mathlib.Data.Int.Basic
import Mathlib.Order.Basic
import Mathlib.Tactic.Linarith

/-!
# The edit graph

Two sequences of `m` and `n` elements are compared by a walk through a graph,
from `(0, 0)` to `(m, n)`. A step to the right leaves out an element of the first
sequence, a step downwards one of the second, and where the elements are the
same one can slide down a diagonal.

`reach d k` is how far to the right one gets on the diagonal `k` with `d` steps,
if one always goes on from where one got farthest. One may get out of the graph
this way. But `exists_reach_eq` shows that the end of the graph is not missed:
who leaves the graph on one side could have gone along the border, and would
have been at the end before.
-/

namespace EditGraph

variable (same : ℤ → ℤ → Bool) (m n : ℤ)

/-- The slide along a diagonal while the elements are equal. -/
def slideLoop : ℕ → ℤ → ℤ → ℤ
  | 0, x, _ => x
  | fuel + 1, x, k =>
    if x < m ∧ x - k < n ∧ same x (x - k) then slideLoop fuel (x + 1) k else x

/-- **Slide down** the diagonal `k` from `x` as far as possible. -/
def slide (x k : ℤ) : ℤ := slideLoop same m n (m - x).toNat x k

/-- The diagonals on which one can be after `d` steps. -/
def InRange (d : ℕ) (k : ℤ) : Prop := -d ≤ k ∧ k ≤ d ∧ (d - k) % 2 = 0 ∧ -n ≤ k ∧ k ≤ m

instance (d : ℕ) (k : ℤ) : Decidable (InRange m n d k) :=
  inferInstanceAs (Decidable (_ ∧ _ ∧ _ ∧ _ ∧ _))

/-- Whether one comes to a diagonal from the left, given how far one got with a
step less. -/
def FromLeft (prev : ℤ → ℤ) (d : ℕ) (k : ℤ) : Prop :=
  -d < k ∧ (k = d ∨ (-n ≤ k - 1 ∧ prev (k + 1) ≤ prev (k - 1)))

instance (prev : ℤ → ℤ) (d : ℕ) (k : ℤ) : Decidable (FromLeft n prev d k) :=
  inferInstanceAs (Decidable (_ ∧ (_ ∨ _ ∧ _)))

/-- Where one comes to a diagonal. -/
def start (prev : ℤ → ℤ) (d : ℕ) (k : ℤ) : ℤ :=
  if FromLeft n prev d k then prev (k - 1) + 1 else prev (k + 1)

/-- **How far one gets** on a diagonal. -/
def reach : ℕ → ℤ → ℤ
  | 0, k => if k = 0 then slide same m n 0 0 else -1
  | d + 1, k => if InRange m n (d + 1) k then slide same m n (start n (reach d) (d + 1) k) k else -1

variable {same m n} {d : ℕ} {x y k j : ℤ} {prev : ℤ → ℤ}

/-! ## Sliding -/

/-- The slide stops at the first elements that differ, or at the edge. -/
theorem slideLoop_spec (fuel : ℕ) (x k : ℤ) (hx : m - x ≤ fuel) :
    x ≤ slideLoop same m n fuel x k
      ∧ (slideLoop same m n fuel x k = x
        ∨ slideLoop same m n fuel x k ≤ m ∧ slideLoop same m n fuel x k - k ≤ n)
      ∧ (∀ z, x ≤ z → z < slideLoop same m n fuel x k → same z (z - k) = true)
      ∧ ¬(slideLoop same m n fuel x k < m ∧ slideLoop same m n fuel x k - k < n
        ∧ same (slideLoop same m n fuel x k) (slideLoop same m n fuel x k - k)) := by
  induction fuel generalizing x with
  | zero =>
    refine ⟨le_refl x, Or.inl rfl, fun z hz hlt => absurd hlt (not_lt_of_ge hz), fun h => ?_⟩
    have h := h.1
    rw [slideLoop] at h
    omega
  | succ fuel ih =>
    rw [slideLoop]
    by_cases hcond : x < m ∧ x - k < n ∧ same x (x - k)
    · rw [if_pos hcond]
      obtain ⟨hle, hin, hsame, hmax⟩ := ih (x + 1) (by omega)
      refine ⟨by omega, Or.inr ?_, fun z hz hlt => ?_, hmax⟩
      · rcases hin with heq | hin
        · rw [heq]
          omega
        · exact hin
      · rcases eq_or_lt_of_le hz with rfl | hz
        · exact hcond.2.2
        · exact hsame z hz hlt
    · rw [if_neg hcond]
      exact ⟨le_refl x, Or.inl rfl, fun z hz hlt => absurd hlt (not_lt_of_ge hz), hcond⟩

section

variable (same m n)

theorem slide_le (x k : ℤ) : x ≤ slide same m n x k :=
  (slideLoop_spec _ x k (Int.self_le_toNat _)).1

/-- One does not slide out of the graph. -/
theorem slide_in (x k : ℤ) :
    slide same m n x k = x ∨ slide same m n x k ≤ m ∧ slide same m n x k - k ≤ n :=
  (slideLoop_spec _ x k (Int.self_le_toNat _)).2.1

/-- One slides as far as possible. -/
theorem slide_max (x k : ℤ) : ¬(slide same m n x k < m ∧ slide same m n x k - k < n
    ∧ same (slide same m n x k) (slide same m n x k - k)) :=
  (slideLoop_spec _ x k (Int.self_le_toNat _)).2.2.2

end

/-- All one slides over is the same. -/
theorem same_of_slide {z : ℤ} (h : x ≤ z) (hlt : z < slide same m n x k) : same z (z - k) = true :=
  (slideLoop_spec _ x k (Int.self_le_toNat _)).2.2.1 z h hlt

/-! ## How far one gets -/

/-- Outside of the box nothing can be reached. -/
theorem reach_of_not_inRange (h : ¬InRange m n d k) (hm : 0 ≤ m) (hn : 0 ≤ n) :
    reach same m n d k = -1 := by
  cases d with
  | zero =>
    refine if_neg fun hk => h ?_
    subst hk
    exact ⟨by omega, by omega, by omega, by omega, by omega⟩
  | succ d => exact if_neg h

theorem inRange_of_reach (hm : 0 ≤ m) (hn : 0 ≤ n) (h : 0 ≤ reach same m n d k) :
    InRange m n d k := by
  by_contra hnot
  rw [reach_of_not_inRange hnot hm hn] at h
  omega

theorem reach_zero : reach same m n 0 0 = slide same m n 0 0 := if_pos rfl

theorem reach_succ (h : InRange m n (d + 1) k) :
    reach same m n (d + 1) k = slide same m n (start n (reach same m n d) (d + 1) k) k := if_pos h

variable (same) in
/-- One gets as far as possible. -/
theorem reach_max (h : InRange m n d k) : ¬(reach same m n d k < m ∧ reach same m n d k - k < n
    ∧ same (reach same m n d k) (reach same m n d k - k)) := by
  cases d with
  | zero =>
    obtain ⟨h1, h2, -⟩ := h
    obtain rfl : k = 0 := by
      push_cast at h1 h2
      omega
    rw [reach_zero]
    exact slide_max same m n 0 0
  | succ d =>
    rw [reach_succ h]
    exact slide_max same m n _ k

/-- Out of the graph one does not slide. -/
theorem reach_eq_start (h : InRange m n (d + 1) k)
    (hout : m < reach same m n (d + 1) k ∨ n < reach same m n (d + 1) k - k) :
    reach same m n (d + 1) k = start n (reach same m n d) (d + 1) k := by
  rw [reach_succ h] at hout ⊢
  exact (slide_in same m n _ k).resolve_right fun hin => by omega

section

variable (same) (hm : 0 ≤ m) (hn : 0 ≤ n) (hmn : 0 < m + n)

include hm hn hmn

/-- **Where one comes from**: from the left, if that is farther, else from above. -/
theorem start_spec (h : InRange m n (d + 1) k)
    (hnonneg : ∀ k', InRange m n d k' → 0 ≤ reach same m n d k') :
    (FromLeft n (reach same m n d) (d + 1) k ∧ InRange m n d (k - 1)
        ∧ start n (reach same m n d) (d + 1) k = reach same m n d (k - 1) + 1
        ∧ reach same m n d (k + 1) ≤ reach same m n d (k - 1))
      ∨ (¬FromLeft n (reach same m n d) (d + 1) k ∧ InRange m n d (k + 1)
        ∧ start n (reach same m n d) (d + 1) k = reach same m n d (k + 1)
        ∧ reach same m n d (k - 1) < reach same m n d (k + 1)) := by
  obtain ⟨hk1, hk2, hpar, hk3, hk4⟩ := h
  push_cast at hk1 hk2 hpar
  have hout : ∀ k', ¬InRange m n d k' → reach same m n d k' = -1 := fun k' h' =>
    reach_of_not_inRange h' hm hn
  by_cases hleft : FromLeft n (reach same m n d) (d + 1) k
  · obtain ⟨hlt, hcase⟩ := id hleft
    push_cast at hlt hcase
    have hin : InRange m n d (k - 1) := by
      refine ⟨by omega, by omega, by omega, ?_, by omega⟩
      rcases hcase with rfl | ⟨hge, -⟩
      · omega
      · exact hge
    refine Or.inl ⟨hleft, hin, if_pos hleft, ?_⟩
    rcases hcase with rfl | ⟨-, hle⟩
    · rw [hout _ fun hin' => by have := hin'.2.1; omega]
      have := hnonneg _ hin
      omega
    · exact hle
  · have hnot : k = -(d + 1) ∨ k < d + 1 ∧ (k - 1 < -n ∨ reach same m n d (k - 1)
        < reach same m n d (k + 1)) := by
      by_contra hcon
      refine hleft ⟨?_, ?_⟩ <;> push_cast <;> omega
    -- the diagonal on the right is one where one has been
    have hin : InRange m n d (k + 1) := by
      refine ⟨by omega, by omega, by omega, by omega, ?_⟩
      by_contra hgt
      rw [hout (k + 1) fun hin' => hgt hin'.2.2.2.2] at hnot
      have hin' : InRange m n d (k - 1) := ⟨by omega, by omega, by omega, by omega, by omega⟩
      have := hnonneg _ hin'
      omega
    refine Or.inr ⟨hleft, hin, if_neg hleft, ?_⟩
    have hnn := hnonneg _ hin
    by_cases hin' : InRange m n d (k - 1)
    · obtain ⟨h1, h2, h3, h4, h5⟩ := hin'
      omega
    · rw [hout _ hin']
      omega

/-- **Where one is** after some steps: not to the left of the graph nor above it, and
as far as there were steps. -/
theorem reach_nonneg (h : InRange m n d k) :
    0 ≤ reach same m n d k ∧ k ≤ reach same m n d k
      ∧ d ≤ reach same m n d k + (reach same m n d k - k) := by
  induction d generalizing k with
  | zero =>
    obtain rfl : k = 0 := by
      obtain ⟨h1, h2, -⟩ := h
      push_cast at h1 h2
      omega
    have hle := slide_le same m n 0 0
    rw [reach_zero]
    push_cast
    omega
  | succ d ih =>
    have hle := slide_le same m n (start n (reach same m n d) (d + 1) k) k
    rw [reach_succ h]
    push_cast
    rcases start_spec same hm hn hmn h (fun k' h' => (ih h').1) with
      ⟨-, hin, heq, -⟩ | ⟨-, hin, heq, -⟩
    · have := ih hin
      omega
    · have := ih hin
      omega

/-- With one more step one gets farther than on either diagonal next to it. -/
theorem start_ge (h : InRange m n (d + 1) k) :
    reach same m n d (k - 1) + 1 ≤ reach same m n (d + 1) k
      ∧ reach same m n d (k + 1) ≤ reach same m n (d + 1) k := by
  have hle := slide_le same m n (start n (reach same m n d) (d + 1) k) k
  rw [reach_succ h]
  rcases start_spec same hm hn hmn h (fun k' h' => (reach_nonneg same hm hn hmn h').1) with
    ⟨-, -, heq, hcmp⟩ | ⟨-, -, heq, hcmp⟩ <;> omega

/-! ## The end is not missed -/

variable {same}

variable (same) in
omit hmn in
/-- Without an edit only the main diagonal is reached. -/
theorem reach_zero_in (k : ℤ) : reach same m n 0 k ≤ m ∧ (k = 0 → reach same m n 0 k ≤ n) := by
  by_cases hk : k = 0
  · subst hk
    rw [reach_zero]
    rcases slide_in same m n 0 0 with heq | hin
    · rw [heq]
      omega
    · omega
  · rw [reach, if_neg hk]
    omega

/-- Who is below the graph was there, or on its border, on the next diagonal
before. -/
theorem reach_below (h : InRange m n (d + 1) k) (hk : k < m - n) (hj : 1 ≤ j)
    (hout : n + j ≤ reach same m n (d + 1) k - k) :
    n + j - 1 ≤ reach same m n d (k + 1) - (k + 1) := by
  induction d generalizing k with
  | zero =>
    have hout' : n < reach same m n (0 + 1) k - k := by omega
    have heq := reach_eq_start h (Or.inr hout')
    rcases start_spec same hm hn hmn h (fun k' h' => (reach_nonneg same hm hn hmn h').1) with
      ⟨-, ⟨h1, h2, -⟩, hstart, -⟩ | ⟨-, -, hstart, -⟩
    · have := (reach_zero_in same hm hn (k - 1)).2 (by push_cast at h1 h2; omega)
      omega
    · omega
  | succ d ih =>
    have hout' : n < reach same m n (d + 1 + 1) k - k := by omega
    have heq := reach_eq_start h (Or.inr hout')
    rcases start_spec same hm hn hmn h (fun k' h' => (reach_nonneg same hm hn hmn h').1) with
      ⟨-, hin, hstart, -⟩ | ⟨-, -, hstart, -⟩
    · -- one came from the left, below the graph already
      have ih := ih hin (by omega) (by omega)
      rw [sub_add_cancel] at ih
      have hlow := hin.2.2.2.1
      obtain ⟨h1, h2, h3, h4, h5⟩ :=
        inRange_of_reach hm hn (by omega : 0 ≤ reach same m n d k)
      have hge := start_ge same hm hn hmn (d := d) (k := k + 1)
        ⟨by push_cast; omega, by push_cast; omega, by push_cast; omega, by omega, by omega⟩
      rw [add_sub_cancel_right] at hge
      omega
    · omega

/-- Who is to the right of the graph was there, or on its border, on the
diagonal before. -/
theorem reach_right (h : InRange m n (d + 1) k) (hk : m - n < k) (hj : 1 ≤ j)
    (hout : m + j ≤ reach same m n (d + 1) k) : m + j - 1 ≤ reach same m n d (k - 1) := by
  induction d generalizing k with
  | zero =>
    have hout' : m < reach same m n (0 + 1) k := by omega
    have heq := reach_eq_start h (Or.inl hout')
    rcases start_spec same hm hn hmn h (fun k' h' => (reach_nonneg same hm hn hmn h').1) with
      ⟨-, -, hstart, -⟩ | ⟨-, -, hstart, -⟩
    · omega
    · have := (reach_zero_in same hm hn (k + 1)).1
      omega
  | succ d ih =>
    have hout' : m < reach same m n (d + 1 + 1) k := by omega
    have heq := reach_eq_start h (Or.inl hout')
    rcases start_spec same hm hn hmn h (fun k' h' => (reach_nonneg same hm hn hmn h').1) with
      ⟨-, -, hstart, -⟩ | ⟨-, hin, hstart, -⟩
    · omega
    · -- one came from above, to the right of the graph already
      have ih := ih hin (by omega) (by omega)
      rw [add_sub_cancel_right] at ih
      have hup := hin.2.2.2.2
      obtain ⟨h1, h2, h3, h4, h5⟩ :=
        inRange_of_reach hm hn (by omega : 0 ≤ reach same m n d k)
      have hge := start_ge same hm hn hmn (d := d) (k := k - 1)
        ⟨by push_cast; omega, by push_cast; omega, by push_cast; omega, by omega, by omega⟩
      rw [sub_add_cancel] at hge
      omega

omit hmn in
theorem inRange_end : InRange m n (m + n).toNat (m - n) :=
  ⟨by omega, by omega, by omega, by omega, by omega⟩

variable (same) in
omit hmn in
/-- In an empty graph the end is where one begins. -/
theorem reach_zero_end (hmn : m + n ≤ 0) : reach same m n 0 (m - n) = m := by
  have hk : m - n = 0 := by omega
  have hle := slide_le same m n 0 0
  have hin := (reach_zero_in same hm hn (m - n)).1
  rw [hk, reach_zero] at hin ⊢
  omega

variable (same) in
omit hmn in
/-- **The end of the graph is not missed**: who is there, or has missed it, was there. -/
theorem exists_reach_eq_of_le (hend : m ≤ reach same m n d (m - n)) :
    ∃ e ≤ d, reach same m n e (m - n) = m := by
  rcases le_or_gt (m + n) 0 with hmn | hmn
  · exact ⟨0, Nat.zero_le d, reach_zero_end same hm hn hmn⟩
  -- the first time that one is at the end, or has missed it
  obtain ⟨d, hde, hd, hmin⟩ : ∃ e ≤ d, m ≤ reach same m n e (m - n)
      ∧ ∀ e' < e, reach same m n e' (m - n) < m := by
    classical
    have hex : ∃ d, m ≤ reach same m n d (m - n) := ⟨_, hend⟩
    exact ⟨Nat.find hex, Nat.find_min' hex hend, Nat.find_spec hex,
      fun e he => not_le.mp (Nat.find_min hex he)⟩
  refine ⟨d, hde, le_antisymm (not_lt.mp fun hgt => ?_) hd⟩
  cases d with
  | zero =>
    have := (reach_zero_in same hm hn (m - n)).1
    omega
  | succ e =>
    have hin := inRange_of_reach hm hn (hm.trans hd)
    have heq := reach_eq_start hin (Or.inl hgt)
    rcases start_spec same hm hn hmn hin (fun k' h' => (reach_nonneg same hm hn hmn h').1) with
      ⟨-, hin', hstart, -⟩ | ⟨-, hin', hstart, -⟩
    · cases e with
      | zero =>
        obtain ⟨h1, h2, -⟩ := hin'
        have := (reach_zero_in same hm hn (m - n - 1)).2 (by push_cast at h1 h2; omega)
        push_cast at h1 h2
        omega
      | succ f =>
        have hy : n + 1 ≤ reach same m n (f + 1) (m - n - 1) - (m - n - 1) := by omega
        have hback := reach_below hm hn hmn hin' (by omega) le_rfl hy
        have := hmin f (by omega)
        rw [sub_add_cancel] at hback
        omega
    · cases e with
      | zero =>
        have := (reach_zero_in same hm hn (m - n + 1)).1
        omega
      | succ f =>
        have hx : m + 1 ≤ reach same m n (f + 1) (m - n + 1) := by omega
        have hback := reach_right hm hn hmn hin' (by omega) le_rfl hx
        have := hmin f (by omega)
        rw [add_sub_cancel_right, add_sub_cancel_right] at hback
        omega

variable (same) in
omit hmn in
/-- **The end of the graph is reached**, with as many steps as there are elements,
at most. -/
theorem exists_reach_eq : ∃ d : ℕ, d ≤ m + n ∧ reach same m n d (m - n) = m := by
  rcases le_or_gt (m + n) 0 with hmn | hmn
  · exact ⟨0, by omega, reach_zero_end same hm hn hmn⟩
  have hend : m ≤ reach same m n (m + n).toNat (m - n) := by
    have := (reach_nonneg same hm hn hmn (inRange_end hm hn)).2.2
    omega
  obtain ⟨e, he, heq⟩ := exists_reach_eq_of_le same hm hn hend
  exact ⟨e, by omega, heq⟩

end

end EditGraph

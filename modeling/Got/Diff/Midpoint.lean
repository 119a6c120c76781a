import Got.Diff.MyersDivide

/-!
# The middle is not the whole

What Myers' algorithm leaves unsolved when it divides the graph has fewer atoms than
what it was given (`divideMidpoint_smaller`). Where the walks meet there is something
in the middle, so that this is plain. But where they take too long the graph is
divided at a point, which must not be the start or the end of the graph.

The walk from the start gets to the end only if the walk from the end has left the
graph where they would have met, and the other way round. A walk that leaves the graph
on one side was on the border of it, and on the diagonal next to this one it still is,
or was. So it met the other walk there, and that is what `retreat_in` and `reach_in`
say: as long as the walks have not met, they have not left the graph on a diagonal
that both of them have been on.
-/

namespace Got

open EditGraph

section Walks

variable {same : ℤ → ℤ → Bool} {m n : ℤ} {d e : ℕ} {k c x y : ℤ} {kdForward kdBackward : Column}
  {box : DiffBox}

/-! ## One step from the end -/

/-- **Where one comes from** on the way from the end: upwards from the diagonal below, or
from the one above to the left, where this is not the farther one if both are equal. -/
theorem retreat_succ (hin : InRange n m (d + 1) c) (hc : -(d + 1 : ℤ) < c → -n ≤ c - 1) :
    ∃ x₀, retreat same m n (d + 1) c ≤ x₀
      ∧ (retreat same m n (d + 1) c = x₀ ∨ 0 ≤ retreat same m n (d + 1) c
        ∧ 0 ≤ retreat same m n (d + 1) c - c + (n - m))
      ∧ (∀ z, retreat same m n (d + 1) c ≤ z → z < x₀ → same z (z - c + (n - m)) = true)
      ∧ (-(d + 1 : ℤ) < c ∧ x₀ = retreat same m n d (c - 1)
          ∧ (c = d + 1 ∨ retreat same m n d (c - 1) ≤ retreat same m n d (c + 1))
        ∨ c < d + 1 ∧ x₀ = retreat same m n d (c + 1) - 1
          ∧ (c = -(d + 1) ∨ retreat same m n d (c + 1) < retreat same m n d (c - 1))) := by
  refine ⟨(backwardStep m n (retreat same m n d) (d + 1) c).2.2, ?_, ?_, ?_, ?_⟩
  · rw [retreat, if_pos hin]
    exact slideUp_le same _ _ _
  · rw [retreat, if_pos hin]
    exact slideUp_in same _ _ _
  · rw [retreat, if_pos hin]
    exact fun z => same_of_slideUp same _ _ _
  · obtain ⟨h1, h2, -⟩ := hin
    push_cast at h1 h2
    unfold backwardStep
    dsimp only
    rw [if_neg d.succ_ne_zero]
    push_cast
    split
    · next htop =>
      refine Or.inl ⟨htop.1, rfl, htop.2.imp_right And.right⟩
    · next hleft =>
      refine Or.inr ⟨?_, rfl, ?_⟩
      · by_contra hge
        exact hleft ⟨by omega, Or.inl (by omega)⟩
      · by_contra hnot
        rw [not_or, not_lt] at hnot
        exact hleft ⟨by omega, Or.inr ⟨hc (by omega), hnot.2⟩⟩

/-- One goes on to the left and upwards, from either side. -/
theorem retreat_anti (hd : d ≤ n) (hin : InRange n m (d + 1) c) :
    (InRange n m d (c - 1) → retreat same m n (d + 1) c ≤ retreat same m n d (c - 1))
      ∧ (InRange n m d (c + 1) → retreat same m n (d + 1) c ≤ retreat same m n d (c + 1)) := by
  obtain ⟨x₀, hle, -, -, hcase⟩ := @retreat_succ same _ _ _ _ hin (by have := hin.2.2.1; omega)
  obtain ⟨-, -, hpar, -⟩ := hin
  constructor
  · rintro ⟨h1, -⟩
    omega
  · rintro ⟨-, h2, -⟩
    omega

/-- There is one left move for every two diagonals. -/
theorem retreat_low (hd : d ≤ n + 1) (hin : InRange n m d c) (hm : 0 < m) :
    retreat same m n d c ≤ 0 ∨ 2 * retreat same m n d c ≤ 2 * m - d + c := by
  induction d generalizing c with
  | zero =>
    obtain rfl : c = 0 := by
      obtain ⟨h1, h2, -⟩ := hin
      push_cast at h1 h2
      omega
    have := (retreat_le same hm 0 0 (by omega) : retreat same m n 0 0 ≤ m ∧ _).1
    push_cast
    omega
  | succ d ih =>
    push_cast at hd
    obtain ⟨x₀, hle, -, -, hcase⟩ := @retreat_succ same _ _ _ _ hin (by have := hin.2.2.1; omega)
    obtain ⟨h1, h2, hpar, h3, h4⟩ := hin
    push_cast at h1 h2 hpar ⊢
    have hcase' : ∀ c', c' = c - 1 ∨ c' = c + 1 → retreat same m n d c' ≤ 0
        ∨ 2 * retreat same m n d c' ≤ 2 * m - d + c' := by
      intro c' hc'
      by_cases hin' : InRange n m d c'
      · exact ih (by omega) hin'
      · exact Or.inl (by rw [retreat_of_not_inRange hin' hm.le (by omega)]; omega)
    have := hcase' (c - 1) (Or.inl rfl)
    have := hcase' (c + 1) (Or.inr rfl)
    omega

/-- The outermost diagonals are not left at the sides. -/
theorem retreat_outer (hm : 0 < m) (hn : 0 < n) (hd : d ≤ n + 1) :
    (InRange n m d d → 0 ≤ retreat same m n d d)
      ∧ (InRange n m d (-d) → 0 ≤ retreat same m n d (-d) + d + (n - m)) := by
  induction d with
  | zero =>
    have hzero : retreat same m n 0 0 = m ∨ 0 ≤ retreat same m n 0 0
        ∧ 0 ≤ retreat same m n 0 0 - 0 + (n - m) := slideUp_in same 0 (n - m) m
    push_cast
    rw [neg_zero]
    exact ⟨fun _ => by omega, fun _ => by omega⟩
  | succ d ih =>
    push_cast at hd ⊢
    obtain ⟨ih1, ih2⟩ := ih (by omega)
    constructor
    · intro hin
      obtain ⟨x₀, -, hslide, -, hcase⟩ := @retreat_succ same _ _ _ _ hin (by omega)
      obtain ⟨h1, h2, hpar, h3, h4⟩ := hin
      rw [add_sub_cancel_right] at hcase
      have := ih1 ⟨by omega, by omega, by omega, by omega, by omega⟩
      omega
    · intro hin
      obtain ⟨x₀, -, hslide, -, hcase⟩ := @retreat_succ same _ _ _ _ hin (by omega)
      obtain ⟨h1, h2, hpar, h3, h4⟩ := hin
      have hc : -((d : ℤ) + 1) + 1 = -d := by omega
      rw [hc] at hcase
      have := ih2 ⟨by omega, by omega, by omega, by omega, by omega⟩
      omega

/-- Who is to the left of the graph is on its border, at least, on the next diagonal. -/
theorem retreat_left (hm : 0 < m) (hd : d ≤ n + 1) (hin : InRange n m d c)
    (hin' : InRange n m d (c + 2)) (hout : retreat same m n d c < 0) :
    retreat same m n d (c + 2) ≤ retreat same m n d c + 1 := by
  induction d generalizing c with
  | zero =>
    obtain ⟨h1, -⟩ := hin
    obtain ⟨-, h2, -⟩ := hin'
    push_cast at h1 h2
    omega
  | succ d ih =>
    push_cast at hd
    obtain ⟨x₀, -, hslide, -, hcase⟩ := @retreat_succ same _ _ _ _ hin (by have := hin.2.2.1; omega)
    have hanti := (@retreat_anti same _ _ _ _ (by omega) hin').1
    obtain ⟨h1, h2, hpar, h3, h4⟩ := hin
    obtain ⟨-, h2', -, -, h4'⟩ := hin'
    push_cast at h1 h2 hpar h2'
    have hnext : c + 2 - 1 = c + 1 := by omega
    rw [hnext] at hanti
    have hin₁ : InRange n m d (c + 1) := ⟨by omega, by omega, by omega, by omega, by omega⟩
    have hanti := hanti hin₁
    rcases hcase with ⟨hlt, rfl, -⟩ | ⟨-, rfl, -⟩
    · by_cases hlow : -m ≤ c - 1
      · have hprev : c - 1 + 2 = c + 1 := by omega
        have ih := @ih (c - 1) (by omega) ⟨by omega, by omega, by omega, hlow, by omega⟩
          (by rw [hprev]; exact hin₁) (by omega)
        rw [hprev] at ih
        omega
      · -- one was not there before, but to the left of the graph on the next diagonal
        have hne : ¬InRange n m d (c - 1) := fun h => hlow h.2.2.2.1
        rw [retreat_of_not_inRange hne hm.le (by omega)] at hslide
        have := @retreat_low same _ _ _ _ (by omega) hin₁ hm
        omega
    · omega

/-- Who is above the graph could have come there from the diagonal before, as well. -/
theorem retreat_above (hd : d ≤ n + 1) (hin : InRange n m d c)
    (hin' : InRange n m d (c - 2)) (hout : retreat same m n d c - c + (n - m) < 0) :
    retreat same m n d (c - 2) ≤ retreat same m n d c := by
  induction d generalizing c with
  | zero =>
    obtain ⟨-, h1, -⟩ := hin
    obtain ⟨h2, -⟩ := hin'
    push_cast at h1 h2
    omega
  | succ d ih =>
    push_cast at hd
    obtain ⟨x₀, -, hslide, -, hcase⟩ := @retreat_succ same _ _ _ _ hin (by have := hin.2.2.1; omega)
    have hanti := (@retreat_anti same _ _ _ _ (by omega) hin').2
    obtain ⟨h1, h2, hpar, h3, h4⟩ := hin
    obtain ⟨h1', -, -, h3', -⟩ := hin'
    push_cast at h1 h2 hpar h1'
    have hnext : c - 2 + 1 = c - 1 := by omega
    rw [hnext] at hanti
    have hin₁ : InRange n m d (c - 1) := ⟨by omega, by omega, by omega, by omega, by omega⟩
    have hanti := hanti hin₁
    rcases hcase with ⟨-, rfl, -⟩ | ⟨hlt, rfl, hcmp⟩
    · omega
    · -- from the diagonal above one would not have come
      have hprev : c + 1 - 2 = c - 1 := by omega
      have ih := @ih (c + 1) (by omega) ⟨by omega, by omega, by omega, by omega, by omega⟩
        (by rw [hprev]; exact hin₁) (by omega)
      rw [hprev] at ih
      omega

/-! ## The walks do not leave the graph before they meet -/

section

variable (hm : 0 < m) (hn : 0 < n)

include hm hn

/-- **The walk from the end** is in the graph on the diagonals on which the walk from the
start is, if the walks look for each other after its steps and have not met. -/
theorem retreat_in (heven : (n - m) % 2 = 0) (hd : d ≤ n + 1)
    (hapart : ∀ e ≤ d, Apart same m n e) (hin : InRange n m d c)
    (hin' : InRange m n d (c - (n - m))) :
    0 ≤ retreat same m n d c ∧ 0 ≤ retreat same m n d c - c + (n - m) := by
  induction d generalizing c with
  | zero =>
    obtain rfl : c = 0 := by
      obtain ⟨h1, h2, -⟩ := hin
      push_cast at h1 h2
      omega
    have hzero : retreat same m n 0 0 = m ∨ 0 ≤ retreat same m n 0 0
        ∧ 0 ≤ retreat same m n 0 0 - 0 + (n - m) := slideUp_in same 0 (n - m) m
    omega
  | succ d ih =>
    push_cast at hd
    obtain ⟨x₀, -, hslide, -, hcase⟩ := @retreat_succ same _ _ _ _ hin (by have := hin.2.2.1; omega)
    obtain ⟨h1, h2, hpar, h3, h4⟩ := hin
    obtain ⟨h1', h2', hpar', h3', h4'⟩ := hin'
    push_cast at h1 h2 hpar h1' h2' hpar'
    -- where both were, neither met the other
    have hboth : ∀ c', InRange n m d c' → InRange m n d (c' - (n - m)) →
        0 ≤ retreat same m n d c' ∧ 0 ≤ retreat same m n d c' - c' + (n - m)
          ∧ 0 < retreat same m n d c' ∧ c' - (n - m) < retreat same m n d c' := by
      intro c' h h'
      obtain ⟨hx, hy⟩ := ih (by omega) (fun e he => hapart e (by omega)) h h'
      have hlt := (hapart d (by omega)).backward heven c' h h' hx hy
      have hnonneg := reach_nonneg same hm.le hn.le (add_pos hm hn) h'
      exact ⟨hx, hy, by omega, by omega⟩
    rcases hcase with ⟨hlow, rfl, -⟩ | ⟨hlt, rfl, hcmp⟩
    · by_cases hk : -d ≤ c - 1 - (n - m) ∧ -m ≤ c - 1
      · have := hboth (c - 1) ⟨by omega, by omega, by omega, by omega, by omega⟩
          ⟨by omega, by omega, by omega, by omega, by omega⟩
        omega
      · -- the walk from the start was not on the diagonal below, but on the next one
        by_contra hout
        have hneg : retreat same m n d (c - 1) < 0 := by omega
        have hc : c < d + 1 := by
          by_contra hge
          obtain rfl : c = d + 1 := by omega
          rw [add_sub_cancel_right] at hneg
          have := (@retreat_outer same m n d hm hn (by omega)).1
            ⟨by omega, by omega, by omega, by omega, by omega⟩
          omega
        have hin₁ : InRange n m d (c + 1) := ⟨by omega, by omega, by omega, by omega, by omega⟩
        have hpos := (hboth (c + 1) hin₁ ⟨by omega, by omega, by omega, by omega, by omega⟩).2.2.1
        by_cases hin₀ : InRange n m d (c - 1)
        · have hprev : c - 1 + 2 = c + 1 := by omega
          have := @retreat_left same _ _ _ _ hm (by omega) hin₀ (by rw [hprev]; exact hin₁) hneg
          rw [hprev] at this
          omega
        · have hc : ¬-m ≤ c - 1 := fun h => hin₀ ⟨by omega, by omega, by omega, h, by omega⟩
          have := @retreat_low same _ _ _ _ (by omega) hin₁ hm
          omega
    · have hin₁ : InRange n m d (c + 1) := ⟨by omega, by omega, by omega, by omega, by omega⟩
      by_cases hk : c + 1 - (n - m) ≤ d
      · have := hboth (c + 1) hin₁ ⟨by omega, by omega, by omega, by omega, by omega⟩
        omega
      · -- from the diagonal above one would not have come
        by_contra hout
        have hneg : retreat same m n d (c + 1) - (c + 1) + (n - m) < 0 := by omega
        have hc : -(d + 1 : ℤ) < c := by
          by_contra hge
          obtain rfl : c = -(d + 1) := by omega
          have hd' : -((d : ℤ) + 1) + 1 = -d := by omega
          rw [hd'] at hneg hin₁
          have := (@retreat_outer same m n d hm hn (by omega)).2 hin₁
          omega
        have hprev : c + 1 - 2 = c - 1 := by omega
        have := @retreat_above same _ _ _ _ (by omega) hin₁
          (by rw [hprev]; exact ⟨by omega, by omega, by omega, by omega, by omega⟩) hneg
        rw [hprev] at this
        omega

/-- **The walk from the start** is in the graph on the diagonals on which the walk from the
end was, if the walks look for each other after its steps and have not met. -/
theorem reach_in (hodd : (n - m) % 2 ≠ 0) (hapart : ∀ e ≤ d + 1, Apart same m n e)
    (hin : InRange m n (d + 1) k) (hin' : InRange n m d (k + (n - m))) :
    reach same m n (d + 1) k ≤ m ∧ reach same m n (d + 1) k - k ≤ n := by
  induction d generalizing k with
  | zero =>
    obtain ⟨h1', h2', -⟩ := hin'
    push_cast at h1' h2'
    have hslide := slide_in same m n (start n (reach same m n 0) (0 + 1) k) k
    rw [reach_succ hin]
    rcases start_spec same hm.le hn.le (add_pos hm hn) hin
      (fun k' h' => (reach_nonneg same hm.le hn.le (add_pos hm hn) h').1) with
      ⟨-, ⟨h1, h2, -⟩, hstart, -⟩ | ⟨-, ⟨h1, h2, -⟩, hstart, -⟩
    · have := reach_zero_in same hm.le hn.le (k - 1)
      push_cast at h1 h2
      omega
    · have := reach_zero_in same hm.le hn.le (k + 1)
      push_cast at h1 h2
      omega
  | succ d ih =>
    have hslide := slide_in same m n (start n (reach same m n (d + 1)) (d + 1 + 1) k) k
    rw [reach_succ hin]
    obtain ⟨h1', h2', hpar', h3', h4'⟩ := hin'
    push_cast at h1' h2' hpar'
    -- where both were, neither met the other
    have hboth : ∀ k', InRange m n (d + 1) k' → InRange n m d (k' + (n - m)) →
        reach same m n (d + 1) k' < m ∧ reach same m n (d + 1) k' - k' < n := by
      intro k' h h'
      obtain ⟨hx, hy⟩ := ih (fun e he => hapart e (by omega)) h h'
      have hlt := (hapart (d + 1) (by omega)).forward hodd d rfl k' h h' hx hy
      have hlow := h'.2.2.2.1
      have hle : retreat same m n d (k' + (n - m)) ≤ m
          ∧ retreat same m n d (k' + (n - m)) - (k' + (n - m)) + (n - m) ≤ n :=
        retreat_le same hm d _ (by omega)
      omega
    rcases start_spec same hm.le hn.le (add_pos hm hn) hin
      (fun k' h' => (reach_nonneg same hm.le hn.le (add_pos hm hn) h').1) with
      ⟨-, hprev, hstart, -⟩ | ⟨-, hprev, hstart, -⟩
    · obtain ⟨h1, h2, hpar, h3, h4⟩ := id hprev
      push_cast at h1 h2 hpar
      by_cases hk : -d ≤ k - 1 + (n - m)
      · have := hboth (k - 1) hprev ⟨by omega, by omega, by omega, by omega, by omega⟩
        omega
      · -- the walk from the end was not on this diagonal, but on the next but one
        by_contra hout
        have hbelow := reach_below hm.le hn.le (add_pos hm hn) hprev (by omega) le_rfl
          (by omega : n + 1 ≤ reach same m n (d + 1) (k - 1) - (k - 1))
        rw [sub_add_cancel] at hbelow
        have hin₀ := @inRange_of_reach same m n d k hm.le hn.le (by omega)
        obtain ⟨h1₀, h2₀, hpar₀, -⟩ := hin₀
        have hin₁ : InRange m n (d + 1) (k + 1) := by
          refine ⟨?_, ?_, ?_, by omega, by omega⟩ <;> push_cast <;> omega
        have hge := (start_ge same hm.le hn.le (add_pos hm hn) hin₁).1
        rw [add_sub_cancel_right] at hge
        have := hboth (k + 1) hin₁ ⟨by omega, by omega, by omega, by omega, by omega⟩
        omega
    · obtain ⟨h1, h2, hpar, h3, h4⟩ := id hprev
      push_cast at h1 h2 hpar
      by_cases hk : k + 1 + (n - m) ≤ d
      · have := hboth (k + 1) hprev ⟨by omega, by omega, by omega, by omega, by omega⟩
        omega
      · by_contra hout
        have hright := reach_right hm.le hn.le (add_pos hm hn) hprev (by omega) le_rfl
          (by omega : m + 1 ≤ reach same m n (d + 1) (k + 1))
        rw [add_sub_cancel_right, add_sub_cancel_right] at hright
        have hin₀ := @inRange_of_reach same m n d k hm.le hn.le (by omega)
        obtain ⟨h1₀, h2₀, hpar₀, -⟩ := hin₀
        have hin₁ : InRange m n (d + 1) (k - 1) := by
          refine ⟨?_, ?_, ?_, by omega, by omega⟩ <;> push_cast <;> omega
        have hge := (start_ge same hm.le hn.le (add_pos hm hn) hin₁).2
        rw [sub_add_cancel] at hge
        have := hboth (k - 1) hin₁ ⟨by omega, by omega, by omega, by omega, by omega⟩
        omega

/-! ## The graph is not divided at its corners -/

/-- The walk from the start does not get to the end. -/
theorem reach_ne_end (hpos : 0 < d) (hd : d ≤ n + 1) (hapart : ∀ e ≤ d, Apart same m n e) :
    reach same m n d (m - n) ≠ m := by
  intro hend
  have hin := inRange_of_reach hm.le hn.le (hm.le.trans hend.ge)
  obtain ⟨h1, h2, hpar, -⟩ := id hin
  by_cases heven : (n - m) % 2 = 0
  · have hin₀ : InRange n m d 0 := ⟨by omega, by omega, by omega, by omega, by omega⟩
    have hk : 0 - (n - m) = m - n := by omega
    obtain ⟨hx, hy⟩ := retreat_in hm hn heven hd hapart hin₀ (by rwa [hk])
    have hlt := (hapart d le_rfl).backward heven 0 hin₀ (by rwa [hk]) hx hy
    have hle := (retreat_le same hm d 0 (by omega) : retreat same m n d 0 ≤ m ∧ _).1
    rw [hk, hend] at hlt
    exact absurd hle (not_le.mpr hlt)
  · obtain ⟨e, rfl⟩ : ∃ e, d = e + 1 := Nat.exists_eq_succ_of_ne_zero hpos.ne'
    have hc : m - n + (n - m) = 0 := by omega
    have hin₀ : InRange n m e 0 :=
      ⟨by omega, by omega, by push_cast at hpar; omega, by omega, by omega⟩
    have hlt := (hapart _ le_rfl).forward heven e rfl (m - n) hin (by rwa [hc]) hend.le (by omega)
    have hle := (retreat_le same hm e 0 (by omega) : retreat same m n e 0 ≤ m ∧ _).1
    rw [hc, hend] at hlt
    exact absurd hle (not_le.mpr hlt)

/-- On the diagonal on which it began, the walk from the start gets on. -/
theorem reach_zero_le (hpar : d % 2 = 0) : reach same m n 0 0 ≤ reach same m n d 0 := by
  induction d using Nat.twoStepInduction with
  | zero => exact le_rfl
  | one => omega
  | more d ih _ =>
    have h1 : InRange m n (d + 1) (-1) := by
      refine ⟨?_, ?_, ?_, by omega, by omega⟩ <;> push_cast <;> omega
    have h2 : InRange m n (d + 1 + 1) 0 := by
      refine ⟨?_, ?_, ?_, by omega, by omega⟩ <;> push_cast <;> omega
    have hge := (start_ge same hm.le hn.le (add_pos hm hn) h1).2
    have hge' := (start_ge same hm.le hn.le (add_pos hm hn) h2).1
    have hzero : (-1 : ℤ) + 1 = 0 := by omega
    rw [hzero] at hge
    rw [zero_sub] at hge'
    exact (ih (by omega)).trans (show reach same m n d 0 ≤ reach same m n (d + 1 + 1) 0 by omega)

/-- The walk from the end does not get to the start. -/
theorem retreat_ne_start (hpos : 0 < d) (hd : d ≤ n + 1) (hapart : ∀ e ≤ d, Apart same m n e) :
    retreat same m n d (n - m) ≠ 0 := by
  intro hstart
  have hin := inRange_of_retreat hm.le hn.le hstart.ge
  obtain ⟨h1, h2, hpar, -⟩ := id hin
  by_cases heven : (n - m) % 2 = 0
  · have hin₀ : InRange m n d 0 := ⟨by omega, by omega, by omega, by omega, by omega⟩
    have hk : n - m - (n - m) = 0 := by omega
    have hlt := (hapart d le_rfl).backward heven (n - m) hin (by rwa [hk]) hstart.ge (by omega)
    have hnonneg := (reach_nonneg same hm.le hn.le (add_pos hm hn) hin₀).1
    rw [hk, hstart] at hlt
    exact absurd hnonneg (not_le.mpr hlt)
  · obtain ⟨e, rfl⟩ : ∃ e, d = e + 1 := Nat.exists_eq_succ_of_ne_zero hpos.ne'
    push_cast at h1 h2 hpar hd
    obtain ⟨x₀, hle, -, hsame, hcase⟩ := @retreat_succ same _ _ _ _ hin (by omega)
    rw [hstart] at hle hsame
    -- the atoms that were slid along from the end are slid along from the start
    have hslide : x₀ ≤ m → x₀ ≤ n → x₀ ≤ reach same m n e 0 := by
      intro hxm hxn
      have hzero : x₀ ≤ reach same m n 0 0 := by
        rw [reach_zero]
        by_contra hlt
        have hle := slide_le same m n 0 0
        have h := hsame (slide same m n 0 0) hle (by omega)
        have hz : slide same m n 0 0 - (n - m) + (n - m) = slide same m n 0 0 := by omega
        rw [hz] at h
        exact slide_max same m n 0 0 ⟨by omega, by omega, by rwa [sub_zero]⟩
      exact hzero.trans (reach_zero_le hm hn (by omega))
    rcases hcase with ⟨-, hx₀, -⟩ | ⟨-, hx₀, -⟩
    · have hin₁ := @inRange_of_retreat same m n e (n - m - 1) hm.le hn.le (by omega)
      have hlow := hin₁.2.2.2.1
      have hbound : retreat same m n e (n - m - 1) ≤ m
          ∧ retreat same m n e (n - m - 1) - (n - m - 1) + (n - m) ≤ n :=
        retreat_le same hm e _ (by omega)
      have hc : -1 + (n - m) = n - m - 1 := by omega
      have hin₂ : InRange m n (e + 1) (-1) := by
        refine ⟨?_, ?_, ?_, by omega, by omega⟩ <;> push_cast <;> omega
      obtain ⟨hx, hy⟩ := reach_in hm hn heven hapart hin₂ (by rwa [hc])
      have hlt := (hapart _ le_rfl).forward heven e rfl (-1) hin₂ (by rwa [hc]) hx hy
      have hge := (start_ge same hm.le hn.le (add_pos hm hn) hin₂).2
      have hzero : (-1 : ℤ) + 1 = 0 := by omega
      rw [hzero] at hge
      rw [hc] at hlt
      have := hslide (by omega) (by omega)
      omega
    · have hin₁ := @inRange_of_retreat same m n e (n - m + 1) hm.le hn.le (by omega)
      have hlow := hin₁.2.2.2.1
      have hbound : retreat same m n e (n - m + 1) ≤ m
          ∧ retreat same m n e (n - m + 1) - (n - m + 1) + (n - m) ≤ n :=
        retreat_le same hm e _ (by omega)
      have hc : 1 + (n - m) = n - m + 1 := by omega
      have hin₂ : InRange m n (e + 1) 1 := by
        refine ⟨?_, ?_, ?_, by omega, by omega⟩ <;> push_cast <;> omega
      obtain ⟨hx, hy⟩ := reach_in hm hn heven hapart hin₂ (by rwa [hc])
      have hlt := (hapart _ le_rfl).forward heven e rfl 1 hin₂ (by rwa [hc]) hx hy
      have hge := (start_ge same hm.le hn.le (add_pos hm hn) hin₂).1
      rw [sub_self] at hge
      rw [hc] at hlt
      have := hslide (by omega) (by omega)
      omega

omit hn in
/-- If there are more steps than atoms on the right, the walk from the end has left the graph
at its corner. -/
theorem exists_retreat_lt (hd : n + 2 ≤ d) (hn : 0 < n) :
    ∃ c, InRange n m d c ∧ retreat same m n d c + (retreat same m n d c - c + (n - m)) < 0 := by
  have hcorner : ∀ e : ℕ, n + 2 ≤ e → (e - n) % 2 = 0 → retreat same m n e n ≤ -1 := by
    intro e he hpar
    obtain ⟨e, rfl⟩ : ∃ e', e = e' + 1 := Nat.exists_eq_succ_of_ne_zero (by omega)
    push_cast at he hpar
    obtain ⟨x₀, hle, -, -, hcase⟩ := @retreat_succ same m n e n
      ⟨by push_cast; omega, by push_cast; omega, by push_cast; omega, by omega, by omega⟩ (by omega)
    have hout : retreat same m n e (n + 1) = -1 :=
      retreat_of_not_inRange (fun h => absurd h.2.2.2.2 (by omega)) hm.le hn.le
    omega
  by_cases hpar : (d - n) % 2 = 0
  · have := hcorner d hd hpar
    exact ⟨n, ⟨by omega, by omega, by omega, by omega, by omega⟩, by omega⟩
  · obtain ⟨e, rfl⟩ : ∃ e', d = e' + 1 := Nat.exists_eq_succ_of_ne_zero (by omega)
    push_cast at hd hpar
    have hin : InRange n m (e + 1) (n - 1) := by
      refine ⟨?_, ?_, ?_, by omega, by omega⟩ <;> push_cast <;> omega
    obtain ⟨x₀, hle, -, -, hcase⟩ := @retreat_succ same m n e (n - 1) hin (by omega)
    have := hcorner e (by omega) (by omega)
    rw [sub_add_cancel] at hcase
    exact ⟨n - 1, hin, by omega⟩

end

/-! ## The cut -/

/-- **The best of some diagonals**, or none of them. -/
theorem foldl_best {dist : ℤ → ℤ} {p : ℤ → Prop} {f : ℤ × ℤ → ℤ → ℤ × ℤ}
    (hf : ∀ best i, f best i = best ∧ (p i → dist i ≤ best.2)
      ∨ p i ∧ f best i = (i, dist i) ∧ best.2 ≤ dist i) (l : List ℤ) (best : ℤ × ℤ) :
    best.2 ≤ (l.foldl f best).2
      ∧ (l.foldl f best = best ∨ ∃ i ∈ l, p i ∧ l.foldl f best = (i, dist i))
      ∧ ∀ i ∈ l, p i → dist i ≤ (l.foldl f best).2 := by
  induction l generalizing best with
  | nil => exact ⟨le_rfl, Or.inl rfl, fun _ h => absurd h List.not_mem_nil⟩
  | cons i l ih =>
    obtain ⟨hle, hbest, hall⟩ := ih (f best i)
    have hlater : (∃ j ∈ l, p j ∧ l.foldl f (f best i) = (j, dist j)) →
        ∃ j ∈ i :: l, p j ∧ l.foldl f (f best i) = (j, dist j) := fun ⟨j, hj, h⟩ =>
      ⟨j, List.mem_cons_of_mem _ hj, h⟩
    rw [List.foldl_cons]
    rcases hf best i with ⟨heq, hdist⟩ | ⟨hp, heq, hdist⟩
    · rw [heq] at hle hbest hall hlater ⊢
      refine ⟨hle, hbest.imp_right hlater, fun j hj hpj => ?_⟩
      rcases List.mem_cons.mp hj with rfl | hj
      · exact (hdist hpj).trans hle
      · exact hall j hj hpj
    · rw [heq] at hle hbest hall hlater ⊢
      refine ⟨hdist.trans hle, Or.inr ?_, fun j hj hpj => ?_⟩
      · rcases hbest with hbest | hbest
        · exact ⟨i, List.mem_cons_self, hp, hbest⟩
        · exact hlater hbest
      · rcases List.mem_cons.mp hj with rfl | hj
        · exact hle
        · exact hall j hj hpj

variable (m n) in
/-- The best forward diagonal is the one that got furthest, or none. -/
theorem bestForward_spec (kdForward : Column) (d : ℕ) :
    0 ≤ (bestForward m n kdForward d).2
      ∧ (bestForward m n kdForward d = (0, 0) ∨ ∃ i : ℤ, (d - i) % 2 = 0
        ∧ bestForward m n kdForward d = (i, kdForward i + (kdForward i - i)))
      ∧ ∀ i, InRange m n d i →
        kdForward i + (kdForward i - i) ≤ (bestForward m n kdForward d).2 := by
  obtain ⟨hle, hbest, hall⟩ := @foldl_best (fun i => kdForward i + (kdForward i - i))
    (fun i => i ≥ -n ∧ i ≤ m) (fun best i => if i ≥ -n ∧ i ≤ m then
      let x := kdForward i
      let distance := x + (x - i)
      if distance > best.2 then (i, distance) else best
    else best) (fun best i => by
      dsimp only
      split
      · next hp =>
        split
        · next hgt => exact Or.inr ⟨hp, rfl, by omega⟩
        · exact Or.inl ⟨rfl, fun _ => by omega⟩
      · next hp => exact Or.inl ⟨rfl, fun h => absurd h hp⟩) (diagonals d) (0, 0)
  exact ⟨hle, hbest.imp_right fun ⟨i, hi, _, heq⟩ => ⟨i, (mem_diagonals.mp hi).2.2, heq⟩,
    fun i hi => hall i (inRange_iff.mp hi).1 ⟨hi.2.2.2.1, hi.2.2.2.2⟩⟩

variable (m n) in
/-- The best backward diagonal is the one that got furthest from the other end, or none. -/
theorem bestBackward_spec (kdBackward : Column) (d : ℕ) :
    0 ≤ (bestBackward m n kdBackward d).2
      ∧ (bestBackward m n kdBackward d = (0, 0) ∨ ∃ i : ℤ, (d - i) % 2 = 0
        ∧ bestBackward m n kdBackward d
          = (i, (n - kdBackward i) + (m - (kdBackward i - i + (n - m)))))
      ∧ ∀ i, InRange n m d i → (n - kdBackward i) + (m - (kdBackward i - i + (n - m)))
        ≤ (bestBackward m n kdBackward d).2 := by
  obtain ⟨hle, hbest, hall⟩ := @foldl_best
    (fun i => (n - kdBackward i) + (m - (kdBackward i - i + (n - m))))
    (fun i => i ≥ -m ∧ i ≤ n) (fun best i => if i ≥ -m ∧ i ≤ n then
      let x := kdBackward i
      let y := x - i + (n - m)
      let distance := (n - x) + (m - y)
      if distance ≥ best.2 then (i, distance) else best
    else best) (fun best i => by
      dsimp only
      split
      · next hp =>
        split
        · next hge => exact Or.inr ⟨hp, rfl, hge⟩
        · exact Or.inl ⟨rfl, fun _ => by omega⟩
      · next hp => exact Or.inl ⟨rfl, fun h => absurd h hp⟩) (diagonals d) (0, 0)
  exact ⟨hle, hbest.imp_right fun ⟨i, hi, _, heq⟩ => ⟨i, (mem_diagonals.mp hi).2.2, heq⟩,
    fun i hi => hall i (inRange_iff.mp hi).1 ⟨hi.2.2.2.1, hi.2.2.2.2⟩⟩

/-- What lies before the middle, or behind it, is not the whole graph. -/
def DiffBox.Smaller (m n : ℤ) (box : DiffBox) : Prop :=
  box.leftStart + box.rightStart < m + n ∧ 0 < box.leftEnd + box.rightEnd

section

variable (hm : 0 < m) (hn : 0 < n)

include hm hn

/-- A cut of the effort limit is a proper part of the box, so that the recursion ends. -/
theorem effortCut_smaller (hpos : 0 < d)
    (hforward : ∀ k : ℤ, (d - k) % 2 = 0 → kdForward k = reach same m n d k)
    (hbackward : ∀ c : ℤ, (d - c) % 2 = 0 → kdBackward c = retreat same m n d c)
    (hapart : ∀ e ≤ d, Apart same m n e) (h : effortCut m n kdForward kdBackward d = some box) :
    box.Smaller m n := by
  obtain ⟨hfnonneg, hfbest, hfall⟩ := @bestForward_spec m n kdForward d
  obtain ⟨hbnonneg, hbbest, hball⟩ := @bestBackward_spec m n kdBackward d
  -- if the walk from the end has left the graph at its corner, it seems to be the best one
  have hfew : (bestBackward m n kdBackward d).2 ≤ m + n → d ≤ n + 1 := by
    intro hle
    by_contra hgt
    obtain ⟨c, hc, hlt⟩ := @exists_retreat_lt same m n d hm (by omega) hn
    have := hball c hc
    rw [hbackward c hc.2.2.1] at this
    omega
  -- the walk from the start got on
  have hfpos : 0 < (bestForward m n kdForward d).2 := by
    obtain ⟨k, hk⟩ : ∃ k, InRange m n d k := by
      by_cases hpar : (d : ℤ) % 2 = 0
      · exact ⟨0, by omega, by omega, by omega, by omega, by omega⟩
      · exact ⟨1, by omega, by omega, by omega, by omega, by omega⟩
    have := hfall k hk
    rw [hforward k hk.2.2.1] at this
    have := (reach_nonneg same hm.le hn.le (add_pos hm hn) hk).2.2
    omega
  unfold effortCut farthestPoint at h
  dsimp only at h
  by_cases hge : (bestForward m n kdForward d).2 ≥ (bestBackward m n kdBackward d).2
  · rw [if_pos hge] at h
    split at h
    · exact absurd h nofun
    next hin =>
    obtain rfl := Option.some.inj h
    unfold DiffBox.Smaller
    rcases hfbest with hbest | ⟨i, hpar, hbest⟩
    · rw [hbest] at hfpos
      exact absurd hfpos (lt_irrefl _)
    · rw [hbest] at hfpos hge hin ⊢
      dsimp only at hfpos hge hin ⊢
      refine ⟨lt_of_le_of_ne (by omega) fun heq => ?_, by omega⟩
      -- that would be the end of the graph
      obtain rfl : i = m - n := by omega
      rw [hforward _ hpar] at heq hge
      exact reach_ne_end hm hn hpos (hfew (by omega)) hapart (by omega)
  · rw [if_neg hge] at h
    split at h
    · exact absurd h nofun
    next hin =>
    obtain rfl := Option.some.inj h
    unfold DiffBox.Smaller
    rcases hbbest with hbest | ⟨i, hpar, hbest⟩
    · rw [hbest] at hge
      exact absurd hfnonneg hge
    · rw [hbest] at hge hin hfew ⊢
      dsimp only at hge hin hfew ⊢
      refine ⟨by omega, lt_of_le_of_ne (by omega) fun heq => ?_⟩
      -- that would be the start of the graph
      obtain rfl : i = n - m := by omega
      rw [hbackward _ hpar] at heq hfew
      exact retreat_ne_start hm hn hpos (hfew (by omega)) hapart (by omega)

/-- **The middle is not the whole graph**, nor is it nothing at one of its corners. -/
theorem divideMidpoint_smaller {maxEffort fuel : ℕ}
    (h : divideMidpoint same m n maxEffort fuel 0 (fun _ => -1) (fun _ => -1) = some box) :
    box.Valid same m n ∧ box.Smaller m n := by
  have hvalid := divideMidpoint_valid hm hn h
  refine ⟨hvalid, ?_⟩
  rcases divideMidpoint_spec hm hn columns_zero (fun _ h => absurd h (Nat.not_lt_zero _)) h with
    ⟨e, hmeet⟩ | ⟨e, kdForward, kdBackward, hlt, hforward, hbackward, hapart, hcut⟩
  · have hatoms := (hmeet.valid hm).2
    obtain ⟨⟨hl0, hl1, hl2⟩, ⟨hr0, hr1, hr2⟩, -⟩ := hvalid
    unfold DiffBox.HasAtoms at hatoms
    unfold DiffBox.Smaller
    omega
  · exact effortCut_smaller hm hn (Nat.zero_lt_of_lt hlt) hforward hbackward hapart hcut

end

end Walks

/-- **What `diff_algo_myers_divide` leaves unsolved** has fewer atoms than it was given. -/
theorem diffAlgoMyersDivide_leaves {root : DiffRoot} {state : DiffState}
    (hleft : state.left.len ≠ 0)
    (hright : state.right.len ≠ 0) (h : state.Leaves (state.left.len + state.right.len)) :
    (diffAlgoMyersDivide root state).2.Leaves (state.left.len + state.right.len) := by
  unfold diffAlgoMyersDivide
  dsimp only
  split
  · exact h
  · next box hbox =>
    obtain ⟨⟨⟨hl0, hl1, hl2⟩, ⟨hr0, hr1, hr2⟩, -⟩, hbefore, hbehind⟩ :=
      divideMidpoint_smaller (by omega) (by omega) hbox
    refine DiffState.Leaves.addSection ?_ (by omega) _ _
    have hsection := h.addSection
      (by omega : box.leftStart.toNat + box.rightStart.toNat < state.left.len + state.right.len)
      state.left.start state.right.start
    split
    · exact hsection.addSolved _ _ _ _
    · exact hsection

end Got

import Mathlib.Data.List.Basic

/-!
# Selecting from a sequence

A sequence is read up to the first element where one is to stop, what is wanted is
kept of it, and of that the first few are taken. `takeLimit_filter_upTo_eq_iff` is
about doing this in another order, and with less than what is wanted being kept: a
reader that only looks at kept elements for the place to stop goes past it if the
element there is not kept.
-/

namespace Selection

variable {α : Type}

/-- The elements up to and including the first one where one stops. -/
def upTo (stop : α → Bool) : List α → List α
  | [] => []
  | a :: l => if stop a then [a] else a :: upTo stop l

/-- The elements after that. -/
def past (stop : α → Bool) : List α → List α
  | [] => []
  | a :: l => if stop a then l else past stop l

/-- The first few elements, where zero is no limit. -/
def takeLimit (limit : ℕ) (l : List α) : List α := if limit = 0 then l else l.take limit

variable {stop keep keep' : α → Bool} {limit : ℕ} {l : List α}

theorem takeLimit_nil (limit : ℕ) : takeLimit limit ([] : List α) = [] := by
  unfold takeLimit
  rw [List.take_nil, ite_self]

/-- **One element at a time**: the first one is the last if it is the only one that
may be taken, or if one stops there. -/
theorem takeLimit_upTo_cons (limit : ℕ) (stop : α → Bool) (a : α) (l : List α) :
    takeLimit limit (upTo stop (a :: l))
      = if (limit ≠ 0 ∧ limit - 1 = 0) ∨ stop a then [a]
        else a :: takeLimit (limit - 1) (upTo stop l) := by
  rw [upTo]
  unfold takeLimit
  obtain rfl | ⟨n, rfl⟩ : limit = 0 ∨ ∃ n, limit = n + 1 := by
    cases limit with
    | zero => exact Or.inl rfl
    | succ n => exact Or.inr ⟨n, rfl⟩
  · by_cases hstop : stop a <;> simp [hstop]
  · by_cases hstop : stop a
    · simp [hstop]
    · cases n with
      | zero => simp [hstop]
      | succ n => simp [hstop]

theorem mem_of_mem_takeLimit {a : α} (h : a ∈ takeLimit limit l) : a ∈ l := by
  unfold takeLimit at h
  split at h
  · exact h
  · exact List.mem_of_mem_take h

/-- **Stopping among what is kept.** If the place to stop is not kept, what is
kept behind it follows. -/
theorem upTo_filter (stop keep : α → Bool) (l : List α) :
    upTo stop (l.filter keep) = (upTo stop l).filter keep
      ++ if ∃ a ∈ upTo stop l, stop a ∧ keep a then []
        else upTo stop ((past stop l).filter keep) := by
  induction l with
  | nil => rw [if_neg (by simp [upTo])]; rfl
  | cons a l ih =>
    by_cases hstop : stop a
    · rw [upTo, if_pos hstop, past, if_pos hstop]
      by_cases hkeep : keep a
      · rw [if_pos ⟨a, List.mem_singleton_self a, hstop, hkeep⟩, List.filter_cons_of_pos hkeep,
          List.filter_cons_of_pos hkeep, upTo, if_pos hstop]
        rfl
      · rw [if_neg, List.filter_cons_of_neg hkeep, List.filter_cons_of_neg hkeep]
        · rfl
        · rintro ⟨b, hb, -, h⟩
          exact hkeep (List.mem_singleton.mp hb ▸ h)
    · -- the element is none to stop at, so the place to stop is further on
      have hiff : (∃ b ∈ a :: upTo stop l, stop b ∧ keep b)
          ↔ ∃ b ∈ upTo stop l, stop b ∧ keep b := by
        constructor
        · rintro ⟨b, hb, hs, hk⟩
          exact ⟨b, (List.mem_cons.mp hb).resolve_left fun h => hstop (h ▸ hs), hs, hk⟩
        · rintro ⟨b, hb, hs, hk⟩
          exact ⟨b, List.mem_cons_of_mem a hb, hs, hk⟩
      rw [upTo, if_neg hstop, past, if_neg hstop]
      simp only [hiff]
      by_cases hkeep : keep a
      · rw [List.filter_cons_of_pos hkeep, List.filter_cons_of_pos hkeep, upTo, if_neg hstop, ih,
          List.cons_append]
      · rw [List.filter_cons_of_neg hkeep, List.filter_cons_of_neg hkeep, ih]

/-- Taking more than what there is. -/
theorem takeLimit_append_eq_iff (limit : ℕ) (as bs : List α) :
    takeLimit limit (as ++ bs) = takeLimit limit as
      ↔ bs = [] ∨ (limit ≠ 0 ∧ limit ≤ as.length) := by
  unfold takeLimit
  by_cases h : limit = 0
  · rw [if_pos h, if_pos h, List.append_right_eq_self]
    exact ⟨Or.inl, fun h' => h'.resolve_right fun h' => h'.1 h⟩
  rw [if_neg h, if_neg h, List.take_append]
  rw [List.append_right_eq_self, List.take_eq_nil_iff]
  constructor
  · rintro (hlen | hbs)
    · exact Or.inr ⟨h, Nat.sub_eq_zero_iff_le.mp hlen⟩
    · exact Or.inl hbs
  · rintro (hbs | hlen)
    · exact Or.inr hbs
    · exact Or.inl (Nat.sub_eq_zero_of_le hlen.2)

/-- If what is taken is also kept by a stricter filter, the filter changes
nothing of it. -/
theorem takeLimit_filter (h : ∀ a ∈ takeLimit limit l, keep a) :
    takeLimit limit (l.filter keep) = takeLimit limit l := by
  unfold takeLimit at h ⊢
  by_cases hlimit : limit = 0
  · rw [if_pos hlimit] at h
    rw [if_pos hlimit, if_pos hlimit, List.filter_eq_self.mpr h]
  rw [if_neg hlimit] at h
  rw [if_neg hlimit, if_neg hlimit]
  conv_lhs => rw [← List.take_append_drop limit l]
  rw [List.filter_append, List.filter_eq_self.mpr h]
  by_cases hlen : limit ≤ l.length
  · rw [List.take_append_of_le_length (Nat.le_of_eq (List.length_take_of_le hlen).symm),
      List.take_take,
      Nat.min_self]
  · rw [List.drop_of_length_le (Nat.le_of_not_le hlen)]
    show List.take limit (List.take limit l ++ []) = _
    rw [List.append_nil, List.take_take, Nat.min_self]

/-- What is taken up to a stop is taken from the list. -/
theorem mem_of_mem_upTo {a : α} (h : a ∈ upTo stop l) : a ∈ l := by
  induction l with
  | nil => exact absurd h List.not_mem_nil
  | cons b l ih =>
    rw [upTo] at h
    split at h
    · rw [List.mem_singleton.mp h]
      exact List.mem_cons_self
    · obtain rfl | h := List.mem_cons.mp h
      · exact List.mem_cons_self
      · exact List.mem_cons_of_mem b (ih h)

/-- **There is more behind the place to stop**: it is not kept, the limit is not
reached before it, and something is kept behind it. -/
def Overrun (limit : ℕ) (stop keep : α → Bool) (l : List α) : Prop :=
  (∀ a ∈ upTo stop l, stop a → ¬keep a)
    ∧ (limit = 0 ∨ ((upTo stop l).filter keep).length < limit)
    ∧ ∃ a ∈ past stop l, keep a

theorem upTo_eq_nil_iff : upTo stop l = [] ↔ l = [] := by
  cases l with
  | nil => exact Iff.rfl
  | cons a l =>
    rw [upTo]
    split <;> simp

/-- Nothing but an overrun makes a difference, if one and the same filter is used. -/
theorem takeLimit_upTo_filter_eq_iff (limit : ℕ) (stop keep : α → Bool) (l : List α) :
    takeLimit limit (upTo stop (l.filter keep)) = takeLimit limit ((upTo stop l).filter keep)
      ↔ ¬Overrun limit stop keep l := by
  rw [upTo_filter, takeLimit_append_eq_iff]
  unfold Overrun
  have hlimit : (limit = 0 ∨ ((upTo stop l).filter keep).length < limit)
      ↔ ¬(limit ≠ 0 ∧ limit ≤ ((upTo stop l).filter keep).length) := by omega
  rw [hlimit]
  by_cases hstop : ∃ a ∈ upTo stop l, stop a ∧ keep a
  · rw [if_pos hstop]
    obtain ⟨a, ha, hs, hk⟩ := hstop
    exact iff_of_true (Or.inl rfl) fun h => h.1 a ha hs hk
  · rw [if_neg hstop, upTo_eq_nil_iff, List.filter_eq_nil_iff]
    have hnone : ∀ a ∈ upTo stop l, stop a → ¬keep a := fun a ha hs hk =>
      hstop ⟨a, ha, hs, hk⟩
    constructor
    · rintro (hpast | hfull) ⟨-, hfew, a, ha, hk⟩
      · exact hpast a ha hk
      · exact hfew hfull
    · intro h
      by_contra hor
      rw [not_or] at hor
      obtain ⟨hpast, hfew⟩ := hor
      push Not at hpast
      exact h ⟨hnone, hfew, hpast⟩

/-- **When stopping among what is kept selects the same.** -/
theorem takeLimit_filter_upTo_eq_iff (hkeep : ∀ a, keep' a → keep a) :
    takeLimit limit (upTo stop (l.filter keep')) = takeLimit limit ((upTo stop l).filter keep)
      ↔ (∀ a ∈ takeLimit limit ((upTo stop l).filter keep), keep' a)
        ∧ ¬Overrun limit stop keep' l := by
  by_cases h : ∀ a ∈ takeLimit limit ((upTo stop l).filter keep), keep' a
  · -- the stricter filter keeps all that is wanted
    have hboth : ((upTo stop l).filter keep).filter keep' = (upTo stop l).filter keep' := by
      rw [List.filter_filter]
      refine List.filter_congr fun a _ => ?_
      by_cases hk : keep' a
      · rw [hk, hkeep a hk]; rfl
      · rw [Bool.not_eq_true] at hk; rw [hk]; rfl
    rw [← takeLimit_filter h, hboth, takeLimit_upTo_filter_eq_iff]
    rw [← hboth, takeLimit_filter h]
    exact (and_iff_right h).symm
  · refine iff_of_false (fun heq => h fun a ha => ?_) fun hand => h hand.1
    rw [← heq] at ha
    exact (List.mem_filter.mp (mem_of_mem_upTo (mem_of_mem_takeLimit ha))).2

end Selection

import Mathlib.Data.List.Basic
import Mathlib.Order.Lattice

/-!
# Patience sort

Cards are dealt one after the other, and each is put on the first stack whose top card is not
smaller, or on a stack of its own behind all others. Then the cards on top are in order, and an
increasing sequence of cards that were dealt has no more cards than there are stacks.

What carries this is that its last card is not smaller than the one on top of the stack that
has as many stacks before it as the sequence has cards (`Stacked.reached`). It stays like this
when a card is dealt (`Stacked.deal`).
-/

namespace PatienceSort

variable {α β : Type} [LinearOrder β] {key : α → β} {dealt seq : List α} {count target : ℕ}
  {top top' : ℕ → β} {card : α}

/-- **An increasing sequence** of cards, in the order in which they were dealt. -/
structure IsIncreasing (key : α → β) (dealt seq : List α) : Prop where
  sublist : seq.Sublist dealt
  increasing : seq.Pairwise fun a b => key a < key b

/-- **The stacks**, of which the keys of the top cards are known. -/
structure Stacked (key : α → β) (dealt : List α) (count : ℕ) (top : ℕ → β) : Prop where
  sorted : ∀ i j, i < j → j < count → top i < top j
  reached : ∀ seq card, IsIncreasing key dealt (seq ++ [card]) →
    seq.length < count ∧ top seq.length ≤ key card

/-- **Where a card is put**: the stacks before have smaller cards on top, and those from there on
do not. -/
structure IsTarget (count : ℕ) (top : ℕ → β) (target : ℕ) (b : β) : Prop where
  le : target ≤ count
  before : ∀ i < target, top i < b
  behind : target < count → b ≤ top target

theorem Stacked.nil (key : α → β) (top : ℕ → β) : Stacked key [] 0 top :=
  ⟨fun _ _ _ h => absurd h (Nat.not_lt_zero _), fun seq card h => by
    have := List.sublist_nil.mp h.sublist
    exact absurd this (List.append_ne_nil_of_right_ne_nil _ (List.cons_ne_nil _ _))⟩

/-- It is enough that the card on top of the stack before is smaller. -/
theorem Stacked.isTarget (h : Stacked key dealt count top) {b : β} (hle : target ≤ count)
    (hbefore : target = 0 ∨ top (target - 1) < b) (hbehind : target < count → b ≤ top target) :
    IsTarget count top target b := by
  refine ⟨hle, fun i hi => ?_, hbehind⟩
  have hlast := hbefore.resolve_left (by omega)
  rcases Nat.lt_or_eq_of_le (Nat.le_sub_one_of_lt hi) with hlt | rfl
  · exact (h.sorted i (target - 1) hlt (by omega)).trans hlast
  · exact hlast

/-- An increasing sequence ends with the card that was dealt last, or it was there before. -/
theorem IsIncreasing.cases {last : α} (h : IsIncreasing key (dealt ++ [card]) (seq ++ [last])) :
    IsIncreasing key dealt (seq ++ [last])
      ∨ last = card ∧ IsIncreasing key dealt seq ∧ ∀ a ∈ seq, key a < key card := by
  obtain ⟨s, t, heq, hs, ht⟩ := List.sublist_append_iff.mp h.sublist
  rcases List.sublist_singleton.mp ht with rfl | rfl
  · rw [List.append_nil] at heq
    exact Or.inl ⟨heq ▸ hs, h.increasing⟩
  · obtain ⟨rfl, hlast⟩ := List.append_inj' heq rfl
    obtain rfl := List.singleton_inj.mp hlast
    obtain ⟨hseq, -, hlt⟩ := List.pairwise_append.mp h.increasing
    exact Or.inr ⟨rfl, ⟨hs, hseq⟩, fun a ha => hlt a ha _ (List.mem_singleton_self _)⟩

/-- **A card is dealt.** -/
theorem Stacked.deal (h : Stacked key dealt count top)
    (htarget : IsTarget count top target (key card))
    (htop : top' target = key card) (hother : ∀ i < count, i ≠ target → top' i = top i) :
    Stacked key (dealt ++ [card]) (max count (target + 1)) top' := by
  have hle := htarget.le
  have hbefore : ∀ i < target, top' i < key card := fun i hi => by
    rw [hother i (by omega) (by omega)]
    exact htarget.before i hi
  refine ⟨fun i j hij hj => ?_, fun seq last hseq => ?_⟩
  · -- a card is put between smaller ones and larger ones
    rcases Nat.lt_trichotomy j target with hlt | rfl | hgt
    · rw [hother i (by omega) (by omega), hother j (by omega) (by omega)]
      exact h.sorted i j hij (by omega)
    · rw [htop]
      exact hbefore i hij
    · have hjc : j < count := by omega
      rw [hother j hjc (by omega)]
      rcases eq_or_ne i target with rfl | hne
      · rw [htop]
        exact (htarget.behind (by omega)).trans_lt (h.sorted i j hij hjc)
      · rw [hother i (by omega) hne]
        exact h.sorted i j hij hjc
  · rcases hseq.cases with hold | ⟨rfl, hinc, hlt⟩
    · obtain ⟨hlen, hreached⟩ := h.reached seq last hold
      refine ⟨by omega, ?_⟩
      rcases eq_or_ne seq.length target with heq | hne
      · rw [heq, htop]
        exact (htarget.behind (by omega)).trans (heq ▸ hreached)
      · rwa [hother _ hlen hne]
    · -- the card before the last one lies on a stack before the target
      have hlen : seq.length ≤ target := by
        rcases List.eq_nil_or_concat' seq with rfl | ⟨init, b, rfl⟩
        · exact Nat.zero_le _
        obtain ⟨hinit, hreached⟩ := h.reached init b hinc
        have hb := hlt b (List.mem_append_right _ (List.mem_singleton_self _))
        rw [List.length_append, List.length_singleton]
        by_contra hnot
        have hge : top target ≤ top init.length := by
          rcases Nat.lt_or_eq_of_le (show target ≤ init.length by omega) with hlt | heq
          · exact (h.sorted _ _ hlt hinit).le
          · rw [heq]
        exact absurd hb (not_lt.mpr ((htarget.behind (by omega)).trans (hge.trans hreached)))
      refine ⟨by omega, ?_⟩
      rcases Nat.lt_or_eq_of_le hlen with hlt | heq
      · exact (hbefore _ hlt).le
      · rw [heq, htop]

/-- **No increasing sequence is longer** than there are stacks. -/
theorem Stacked.length_le (h : Stacked key dealt count top) (hseq : IsIncreasing key dealt seq) :
    seq.length ≤ count := by
  rcases List.eq_nil_or_concat' seq with rfl | ⟨init, b, rfl⟩
  · exact Nat.zero_le _
  · rw [List.length_append]
    exact (h.reached init b hseq).1

end PatienceSort

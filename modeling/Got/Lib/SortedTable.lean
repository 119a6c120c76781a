import Mathlib.Data.Int.Order.Basic
import Mathlib.Order.Lattice
import Mathlib.Data.List.Basic

/-!
# Sorted tables

A table is a list of entries sorted by a key, with duplicate keys allowed.
A search narrows a range of positions down: all entries before it have
smaller keys than the one sought, and all behind it have larger ones. This
is kept by comparing with any entry in the range, however it is picked, so
it says nothing about halving; once the range is empty, the key is not in
the table, and where the range ended is where the key belongs.

How many entries have keys up to a bound says at which position the larger
keys begin.
-/

namespace SortedTable

variable {α κ : Type*} [LinearOrder κ] {key : α → κ} {l : List α}

/-- A list is sorted by a key. -/
def SortedBy (key : α → κ) (l : List α) : Prop := l.Pairwise (fun a b => key a ≤ key b)

theorem SortedBy.le (h : SortedBy key l) {i j : ℕ} (hi : i < l.length) (hj : j < l.length)
    (hij : i ≤ j) : key l[i] ≤ key l[j] := by
  rcases Nat.eq_or_lt_of_le hij with rfl | hlt
  · exact le_refl _
  · exact List.pairwise_iff_getElem.mp h i j _ hj hlt

/-- **What is left to search for a key**: the positions from `left` to
`right`. -/
structure Brackets (key : α → κ) (l : List α) (x : κ) (left right : ℤ) : Prop where
  left_nonneg : 0 ≤ left
  left_le : left ≤ right + 1
  right_lt : right < l.length
  below : ∀ (j : ℕ) (hj : j < l.length), (j : ℤ) < left → key l[j] < x
  above : ∀ (j : ℕ) (hj : j < l.length), right < (j : ℤ) → x < key l[j]

variable {x : κ} {left right : ℤ}

/-- If the entry at hand is smaller, so are all before it. -/
theorem Brackets.narrow_left (b : Brackets key l x left right) (h : SortedBy key l) {i : ℕ}
    (hi : i < l.length) (hr : (i : ℤ) ≤ right) (hx : key l[i] < x) :
    Brackets key l x (i + 1) right where
  left_nonneg := by omega
  left_le := by omega
  right_lt := b.right_lt
  below := fun j hj hji => lt_of_le_of_lt (h.le hj hi (by omega)) hx
  above := b.above

/-- If the entry at hand is larger, so are all behind it. -/
theorem Brackets.narrow_right (b : Brackets key l x left right) (h : SortedBy key l) {i : ℕ}
    (hi : i < l.length) (hl : left ≤ i) (hx : x < key l[i]) :
    Brackets key l x left (i - 1) where
  left_nonneg := b.left_nonneg
  left_le := by omega
  right_lt := by omega
  below := b.below
  above := fun j hj hij => lt_of_lt_of_le hx (h.le hi hj (by omega))

/-- **When nothing is left, the key is not in the table.** -/
theorem Brackets.not_mem (b : Brackets key l x left right) (hrl : right < left) :
    ∀ a ∈ l, key a ≠ x := by
  intro a ha
  obtain ⟨j, hj, rfl⟩ := List.mem_iff_getElem.mp ha
  rcases lt_or_ge (j : ℤ) left with hlt | hge
  · exact ne_of_lt (b.below j hj hlt)
  · exact ne_of_gt (b.above j hj (lt_of_lt_of_le hrl hge))

/-- The table with an entry put in at a position. -/
def insertAt (l : List α) (n : ℕ) (a : α) : List α := l.take n ++ a :: l.drop n

theorem perm_insertAt (l : List α) (n : ℕ) (a : α) : (insertAt l n a).Perm (a :: l) := by
  refine List.perm_middle.trans ?_
  rw [List.take_append_drop]

theorem insertAt_length (l : List α) (a : α) : insertAt l l.length a = l ++ [a] := by
  rw [insertAt, List.take_length, List.drop_length]

theorem map_insertAt {β : Type*} (f : α → β) (l : List α) (n : ℕ) (a : α) :
    insertAt (l.map f) n (f a) = (insertAt l n a).map f := by
  rw [insertAt, insertAt, List.map_append, List.map_cons, List.map_take, List.map_drop]

/-- **And where the search ended is where it belongs.** -/
theorem Brackets.sortedBy_insertAt (b : Brackets key l x left right) (h : SortedBy key l)
    (hrl : right < left) {a : α} (ha : key a = x) : SortedBy key (insertAt l left.toNat a) := by
  have hbefore : ∀ c ∈ l.take left.toNat, key c < x := by
    intro c hc
    obtain ⟨j, hj, rfl⟩ := List.mem_iff_getElem.mp hc
    rw [List.length_take] at hj
    rw [List.getElem_take]
    exact b.below j (by omega) (by omega)
  have hbehind : ∀ c ∈ l.drop left.toNat, x < key c := by
    intro c hc
    obtain ⟨j, hj, rfl⟩ := List.mem_iff_getElem.mp hc
    rw [List.length_drop] at hj
    rw [List.getElem_drop]
    exact b.above _ (by omega) (by omega)
  unfold insertAt SortedBy
  rw [List.pairwise_append, List.pairwise_cons]
  refine ⟨h.sublist (List.take_sublist _ l), ⟨fun c hc => ?_, h.sublist (List.drop_sublist _ l)⟩,
    fun c hc d hd => ?_⟩
  · rw [ha]
    exact le_of_lt (hbehind c hc)
  · rcases List.mem_cons.mp hd with rfl | hd
    · rw [ha]
      exact le_of_lt (hbefore c hc)
    · exact le_of_lt (lt_trans (hbefore c hc) (hbehind d hd))

/-- **Counting finds the threshold**: the keys a bound admits are at the
positions below their number. -/
theorem SortedBy.lt_countP_iff (h : SortedBy key l) {p : α → Bool}
    (hp : ∀ a b, key a ≤ key b → p b → p a) {j : ℕ} (hj : j < l.length) :
    j < l.countP p ↔ p l[j] := by
  induction l generalizing j with
  | nil => exact absurd hj (Nat.not_lt_zero j)
  | cons a l ih =>
    obtain ⟨ha, hl⟩ := List.pairwise_cons.mp h
    cases hpa : p a with
    | true =>
      rw [List.countP_cons_of_pos hpa]
      cases j with
      | zero => simp [hpa]
      | succ j => rw [Nat.add_lt_add_iff_right, List.getElem_cons_succ, ih hl]
    | false =>
      -- no later entry is admitted either
      have hnone : ∀ b ∈ l, ¬p b := fun b hb hpb => by
        rw [hp a b (ha b hb) hpb] at hpa
        exact nomatch hpa
      rw [List.countP_cons_of_neg (by simp [hpa]), List.countP_eq_zero.mpr hnone]
      cases j with
      | zero => simp [hpa]
      | succ j => simpa using hnone _ (List.getElem_mem _)

end SortedTable

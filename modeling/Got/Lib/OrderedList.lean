import Mathlib.Order.Defs.LinearOrder
import Mathlib.Order.Lattice
import Mathlib.Data.List.Nodup
import Mathlib.Data.List.Pairwise

/-!
# Lists in the order of a key

What a search tree contains, from left to right, is a list in order. So that is
what the operations of a search tree are here: finding an element by comparing
with it, and inserting one where the comparison says that it belongs, unless
there is an equal one already.

The comparison is a function, as in C. `ComparesBy` says that it is that of a
key in a linear order.
-/

namespace OrderedList

variable {α β : Type*} [LinearOrder β] {cmp : α → α → Ordering} {key : α → β} {l : List α}

/-- **The comparison of two elements is that of their keys.** -/
structure ComparesBy (cmp : α → α → Ordering) (key : α → β) : Prop where
  lt_iff : ∀ {a b}, cmp a b = .lt ↔ key a < key b
  eq_iff : ∀ {a b}, cmp a b = .eq ↔ key a = key b
  gt_iff : ∀ {a b}, cmp a b = .gt ↔ key b < key a

theorem ComparesBy.swap (h : ComparesBy cmp key) (a b : α) : (cmp a b).swap = cmp b a := by
  cases hab : cmp a b with
  | lt => exact (h.gt_iff.mpr (h.lt_iff.mp hab)).symm
  | eq => exact (h.eq_iff.mpr (h.eq_iff.mp hab).symm).symm
  | gt => exact (h.lt_iff.mpr (h.gt_iff.mp hab)).symm

/-- Distinct keys, in order. -/
def InOrder (key : α → β) (l : List α) : Prop := l.Pairwise (fun a b => key a < key b)

/-- Insert an element, unless there is an equal one. -/
def insertBy (cmp : α → α → Ordering) (a : α) : List α → List α
  | [] => [a]
  | b :: l =>
    match cmp a b with
    | .lt => a :: b :: l
    | .eq => b :: l
    | .gt => b :: insertBy cmp a l

/-- Find the element that compares equal. -/
def findBy (cmp : α → Ordering) (l : List α) : Option α := l.find? (fun b => cmp b = .eq)

/-- In a list ordered by key two elements of one key are the same. -/
theorem InOrder.key_inj (h : InOrder key l) {a b : α} (ha : a ∈ l) (hb : b ∈ l)
    (heq : key a = key b) : a = b := by
  induction l with
  | nil => exact absurd ha List.not_mem_nil
  | cons c l ih =>
    obtain ⟨hc, hl⟩ := List.pairwise_cons.mp h
    rcases List.mem_cons.mp ha with rfl | ha'
    · rcases List.mem_cons.mp hb with rfl | hb'
      · rfl
      · exact absurd heq (ne_of_lt (hc b hb'))
    · rcases List.mem_cons.mp hb with rfl | hb'
      · exact absurd heq (ne_of_gt (hc a ha'))
      · exact ih hl ha' hb'

theorem InOrder.nodup_map (h : InOrder key l) : (l.map key).Nodup := by
  rw [List.Nodup, List.pairwise_map]
  exact h.imp fun hlt => ne_of_lt hlt

theorem InOrder.filter (h : InOrder key l) (p : α → Bool) : InOrder key (l.filter p) :=
  List.Pairwise.filter p h

/-- Lists in order with the same elements are the same. -/
theorem InOrder.ext {l' : List α} (h : InOrder key l) (h' : InOrder key l')
    (hmem : ∀ a, a ∈ l ↔ a ∈ l') : l = l' := by
  have hperm := (List.perm_ext_iff_of_nodup (List.Nodup.of_map _ h.nodup_map)
    (List.Nodup.of_map _ h'.nodup_map)).mpr hmem
  exact hperm.eq_of_pairwise (fun a b _ _ hab hba => absurd hba (lt_asymm hab)) h h'

/-- Inserting keeps what was there. -/
theorem mem_insertBy_of_mem {a b : α} (h : b ∈ l) : b ∈ insertBy cmp a l := by
  induction l with
  | nil => exact absurd h List.not_mem_nil
  | cons c l ih =>
    rw [insertBy]
    split
    · exact List.mem_cons_of_mem a h
    · exact h
    · rcases List.mem_cons.mp h with rfl | h
      · exact List.mem_cons_self
      · exact List.mem_cons_of_mem c (ih h)

/-- What is there after an insertion. -/
theorem eq_or_mem_of_mem_insertBy {a b : α} (h : b ∈ insertBy cmp a l) : b = a ∨ b ∈ l := by
  induction l with
  | nil => exact Or.inl (List.mem_singleton.mp h)
  | cons c l ih =>
    rw [insertBy] at h
    split at h
    · exact List.mem_cons.mp h
    · exact Or.inr h
    · rcases List.mem_cons.mp h with rfl | h
      · exact Or.inr List.mem_cons_self
      · exact (ih h).imp_right (List.mem_cons_of_mem c)

/-- **Insertion keeps the order.** -/
theorem InOrder.insertBy (hcmp : ComparesBy cmp key) (h : InOrder key l) (a : α) :
    InOrder key (insertBy cmp a l) := by
  induction l with
  | nil => exact List.pairwise_singleton _ a
  | cons c l ih =>
    obtain ⟨hc, hl⟩ := List.pairwise_cons.mp h
    rw [OrderedList.insertBy]
    split
    · next hlt =>
      have hlt := hcmp.lt_iff.mp hlt
      refine List.pairwise_cons.mpr ⟨fun b hb => ?_, h⟩
      rcases List.mem_cons.mp hb with rfl | hb
      · exact hlt
      · exact lt_trans hlt (hc b hb)
    · exact h
    · next hgt =>
      have hgt := hcmp.gt_iff.mp hgt
      refine List.pairwise_cons.mpr ⟨fun b hb => ?_, ih hl⟩
      rcases eq_or_mem_of_mem_insertBy hb with rfl | hb
      · exact hgt
      · exact hc b hb

/-- An element whose key is not there is inserted. -/
theorem perm_insertBy (hcmp : ComparesBy cmp key) {a : α} (h : ∀ b ∈ l, key b ≠ key a) :
    (insertBy cmp a l).Perm (a :: l) := by
  induction l with
  | nil => exact List.Perm.refl _
  | cons c l ih =>
    rw [insertBy]
    split
    · exact List.Perm.refl _
    · next heq => exact absurd (hcmp.eq_iff.mp heq).symm (h c List.mem_cons_self)
    · exact ((ih fun b hb => h b (List.mem_cons_of_mem c hb)).cons c).trans (List.Perm.swap a c l)

/-- An element whose key is there is not inserted. -/
theorem insertBy_of_mem (hcmp : ComparesBy cmp key) (hl : InOrder key l) {a b : α} (hb : b ∈ l)
    (heq : key b = key a) : insertBy cmp a l = l := by
  induction l with
  | nil => exact absurd hb List.not_mem_nil
  | cons c l ih =>
    obtain ⟨hc, hl⟩ := List.pairwise_cons.mp hl
    rw [insertBy]
    rcases List.mem_cons.mp hb with rfl | hb
    · rw [hcmp.eq_iff.mpr heq.symm]
    · rw [hcmp.gt_iff.mpr (heq ▸ hc b hb)]
      dsimp only
      rw [ih hl hb]

/-- At most one element is inserted. -/
theorem length_insertBy_le (a : α) (l : List α) : (insertBy cmp a l).length ≤ l.length + 1 := by
  induction l with
  | nil => exact Nat.le_refl _
  | cons c l ih =>
    rw [insertBy]
    split
    · exact Nat.le_refl _
    · exact Nat.le_succ _
    · exact Nat.succ_le_succ ih

/-- An element behind all others is inserted at the end. -/
theorem insertBy_of_forall_lt (hcmp : ComparesBy cmp key) {a : α} (h : ∀ b ∈ l, key b < key a) :
    insertBy cmp a l = l ++ [a] := by
  induction l with
  | nil => rfl
  | cons c l ih =>
    rw [insertBy, hcmp.gt_iff.mpr (h c List.mem_cons_self)]
    dsimp only
    rw [ih fun b hb => h b (List.mem_cons_of_mem c hb)]
    rfl

/-- Distinct elements, of which one is not selected any more. -/
theorem length_filter_of_flip (hnodup : l.Nodup) {a : α} (ha : a ∈ l) {p q : α → Bool}
    (hp : p a = true) (hq : q a = false) (hsame : ∀ b ∈ l, b ≠ a → q b = p b) :
    (l.filter p).length = (l.filter q).length + 1 := by
  obtain ⟨before, behind, rfl⟩ := List.append_of_mem ha
  have hrest : (before ++ behind).filter p = (before ++ behind).filter q := by
    refine List.filter_congr fun b hb => (hsame b ?_ ?_).symm
    · exact List.perm_middle.mem_iff.mpr (List.mem_cons_of_mem a hb)
    · rintro rfl
      exact (List.nodup_cons.mp (List.nodup_middle.mp hnodup)).1 hb
  rw [(List.perm_middle.filter p).length_eq, (List.perm_middle.filter q).length_eq,
    List.filter_cons_of_pos hp, List.filter_cons_of_neg (by simp [hq]), hrest, List.length_cons]

/-- **What is found** is the element with the key looked for, if there is
one. -/
theorem findBy_eq_some_iff {find : α → Ordering} {k : β} (hfind : ∀ b, find b = .eq ↔ k = key b)
    (hl : InOrder key l) {b : α} : findBy find l = some b ↔ b ∈ l ∧ key b = k := by
  constructor
  · intro h
    have heq : find b = .eq := by simpa using List.find?_some h
    exact ⟨List.mem_of_find?_eq_some h, ((hfind b).mp heq).symm⟩
  · rintro ⟨hb, heq⟩
    cases h : findBy find l with
    | none =>
      have hnone := List.find?_eq_none.mp h b hb
      exact absurd ((hfind b).mpr heq.symm) (by simpa using hnone)
    | some c =>
      have hc : find c = .eq := by simpa using List.find?_some h
      rw [hl.key_inj (List.mem_of_find?_eq_some h) hb (((hfind c).mp hc).symm.trans heq.symm)]

/-! ## Beginnings -/

/-- What a condition takes, a weaker one takes first. -/
theorem takeWhile_of_imp {p q : α → Bool} (h : ∀ a, q a → p a) (l : List α) :
    l.takeWhile p = l.takeWhile q ++ (l.dropWhile q).takeWhile p := by
  induction l with
  | nil => rfl
  | cons a l ih =>
    by_cases hq : q a
    · rw [List.takeWhile_cons_of_pos (h a hq), List.takeWhile_cons_of_pos hq,
        List.dropWhile_cons_of_pos hq, ih, List.cons_append]
    · rw [List.takeWhile_cons_of_neg hq, List.dropWhile_cons_of_neg hq, List.nil_append]

/-- Dropping fewer elements before dropping more makes no difference. -/
theorem dropWhile_of_imp {p q : α → Bool} (h : ∀ a, q a → p a) (l : List α) :
    (l.dropWhile q).dropWhile p = l.dropWhile p := by
  induction l with
  | nil => rfl
  | cons a l ih =>
    by_cases hq : q a
    · rw [List.dropWhile_cons_of_pos hq, List.dropWhile_cons_of_pos (h a hq), ih]
    · rw [List.dropWhile_cons_of_neg hq]

end OrderedList

import Mathlib.Data.List.TakeWhile

/-!
# Lists by recency

A list whose elements have keys, with the ones that were used last in front. It is looked up from
the front: where several elements have a key, the one in front hides the others.

An element that is found moves to the front. That changes what is in front of what, but not the
element that is found by any key (`lookup_touch`): the one that moves was in front of all others
that have its key. Elements are dropped at the end, so an element is not uncovered by what is
dropped (`lookup_of_dropLast`).
-/

namespace Recency

variable {α κ : Type*} [DecidableEq κ] (key : α → κ)

/-- The first element with a key. -/
def lookup (l : List α) (k : κ) : Option α := l.find? (key · = k)

/-- The first element with a key, if there is one, moves to the front. -/
def touch (l : List α) (k : κ) : List α :=
  match l.dropWhile (key · ≠ k) with
  | [] => l
  | a :: after => a :: (l.takeWhile (key · ≠ k) ++ after)

variable {key} {l before after : List α} {a : α} {k : κ}

@[simp]
theorem lookup_cons (a : α) (l : List α) (k : κ) :
    lookup key (a :: l) k = if key a = k then some a else lookup key l k := by
  rw [lookup, List.find?_cons]
  by_cases h : key a = k
  · rw [decide_eq_true h, if_pos h]
  · rw [decide_eq_false h, if_neg h]
    rfl

theorem lookup_append (l m : List α) (k : κ) :
    lookup key (l ++ m) k = (lookup key l k).or (lookup key m k) :=
  List.find?_append

theorem lookup_eq_none_iff : lookup key l k = none ↔ k ∉ l.map key := by
  rw [lookup, List.find?_eq_none, List.mem_map, not_exists]
  refine forall_congr' fun a => ?_
  rw [decide_eq_true_iff, not_and]

/-- **What a list is made of**, looked up by a key: there is an element that has it behind those
that do not, or none has it. -/
theorem dropWhile_cases (key : α → κ) (l : List α) (k : κ) :
    (l.dropWhile (key · ≠ k) = [] ∧ lookup key l k = none)
      ∨ ∃ before a after, l = before ++ a :: after ∧ l.takeWhile (key · ≠ k) = before
        ∧ l.dropWhile (key · ≠ k) = a :: after ∧ key a = k ∧ k ∉ before.map key := by
  have hl : l.takeWhile (key · ≠ k) ++ l.dropWhile (key · ≠ k) = l :=
    List.takeWhile_append_dropWhile
  have hbefore : k ∉ (l.takeWhile (key · ≠ k)).map key := by
    intro hk
    obtain ⟨x, hx, hkx⟩ := List.mem_map.mp hk
    have hne := List.mem_takeWhile_imp hx
    exact (of_decide_eq_true hne) hkx
  cases hd : l.dropWhile (key · ≠ k) with
  | nil =>
    left
    rw [hd, List.append_nil] at hl
    rw [hl] at hbefore
    exact ⟨rfl, lookup_eq_none_iff.mpr hbefore⟩
  | cons a after =>
    right
    rw [hd] at hl
    refine ⟨_, a, after, hl.symm, rfl, rfl, ?_, hbefore⟩
    have hhead := List.head?_dropWhile_not (key · ≠ k) l
    rw [hd] at hhead
    exact not_not.mp (of_decide_eq_false hhead)

theorem lookup_middle (ha : key a = k) (hbefore : k ∉ before.map key) :
    lookup key (before ++ a :: after) k = some a := by
  rw [lookup_append, lookup_eq_none_iff.mpr hbefore, Option.none_or, lookup_cons, if_pos ha]

/-- Moving an element to the front loses none. -/
theorem touch_perm (key : α → κ) (l : List α) (k : κ) : (touch key l k).Perm l := by
  rcases dropWhile_cases key l k with ⟨hd, -⟩ | ⟨before, a, after, hl, ht, hd, -, -⟩
  · rw [touch, hd]
  · rw [touch, hd, ht]
    dsimp only
    rw [hl]
    exact List.perm_middle.symm

/-- **What is found is the same** after an element was moved to the front. -/
@[simp]
theorem lookup_touch (key : α → κ) (l : List α) (k k' : κ) :
    lookup key (touch key l k) k' = lookup key l k' := by
  rcases dropWhile_cases key l k with ⟨hd, -⟩ | ⟨before, a, after, hl, ht, hd, ha, hbefore⟩
  · rw [touch, hd]
  · rw [touch, hd, ht]
    dsimp only
    rw [lookup_cons]
    by_cases hk : key a = k'
    · obtain rfl : k = k' := ha.symm.trans hk
      rw [if_pos hk, hl, lookup_middle ha hbefore]
    · rw [if_neg hk, hl, lookup_append, lookup_append, lookup_cons, if_neg hk]

/-- **What is dropped uncovers nothing**. -/
theorem lookup_of_dropLast (h : lookup key l.dropLast k = some a) : lookup key l k = some a :=
  (List.dropLast_prefix l).find?_eq_some h

end Recency

import Mathlib.Data.List.Basic
import Mathlib.Data.List.GetD
import Mathlib.Data.List.Nodup

/-!
# Slots

An array of slots that are filled from the first one on. Whoever looks for something in it
stops at the first empty slot, so what is behind one is not seen (`find_eq_find?`). An
array without holes is a list of entries and a number of empty slots (`ofList`), and what
is done to it is done to the list: an entry is added behind the last one (`ofList_set`),
the last one is taken out (`ofList_set_none`), or one is put in front of all the others,
where the last one makes room if there is none (`cons_dropLast_ofList`).
-/

namespace Slots

variable {α : Type*}

/-- The entries in front of the first empty slot. -/
def entries : List (Option α) → List α
  | [] => []
  | none :: _ => []
  | some a :: slots => a :: entries slots

/-- The first entry with some property, in front of the first empty slot. -/
def find (p : α → Bool) : List (Option α) → Option α
  | [] => none
  | none :: _ => none
  | some a :: slots => if p a then some a else find p slots

/-- **Nothing is behind an empty slot.** -/
def Contiguous (slots : List (Option α)) : Prop :=
  ∃ (as : List α) (k : ℕ), slots = as.map some ++ List.replicate k none

/-- `n` slots of which the first ones are in use. -/
def ofList (n : ℕ) (as : List α) : List (Option α) :=
  as.map some ++ List.replicate (n - as.length) none

/-- All entries move up one slot, the last one out. The first slot keeps what it has. -/
def moveUp : List (Option α) → List (Option α)
  | [] => []
  | a :: slots => a :: (a :: slots).dropLast

/-- The entry of a slot changes places with that of the first one. -/
def swapFront (slots : List (Option α)) (i : ℕ) : List (Option α) :=
  (slots.set 0 (slots.getD i none)).set i (slots.getD 0 none)

variable {n : ℕ} {as : List α} {a : α}

/-- A search through slots is a search through the entries they hold. -/
theorem find_eq_find? (p : α → Bool) (slots : List (Option α)) :
    find p slots = (entries slots).find? p := by
  induction slots with
  | nil => rfl
  | cons slot slots ih =>
    cases slot with
    | none => rfl
    | some a =>
      rw [find, entries, List.find?_cons, ih]
      cases p a <;> rfl

theorem entries_append_replicate (as : List α) (k : ℕ) :
    entries (as.map some ++ List.replicate k none) = as := by
  induction as with
  | nil => cases k <;> rfl
  | cons a as ih => rw [List.map_cons, List.cons_append, entries, ih]

@[simp] theorem entries_ofList : entries (ofList n as) = as := entries_append_replicate as _

theorem length_ofList (h : as.length ≤ n) : (ofList n as).length = n := by
  rw [ofList, List.length_append, List.length_map, List.length_replicate]
  omega

theorem contiguous_ofList : Contiguous (ofList n as) := ⟨as, _, rfl⟩

/-- With an empty slot in front there is nothing. -/
theorem not_contiguous_cons_none (ha : a ∈ as) : ¬Contiguous (none :: ofList n as) := by
  rintro ⟨bs, k, h⟩
  cases bs with
  | nil =>
    have hmem : some a ∈ none :: ofList n as :=
      List.mem_cons_of_mem _ (List.mem_append_left _ (List.mem_map_of_mem ha))
    rw [h] at hmem
    exact Option.some_ne_none a (List.eq_of_mem_replicate hmem)
  | cons b bs => cases (List.cons.inj h).1

/-- What there is in slots without holes. -/
theorem filterMap_ofList : (ofList n as).filterMap id = as := by
  rw [ofList, List.filterMap_append, List.filterMap_map, List.filterMap_replicate_of_none rfl,
    List.append_nil]
  exact List.filterMap_some

/-- **Fill the first empty slot.** -/
theorem ofList_set (h : as.length < n) (a : α) :
    (ofList n as).set as.length (some a) = ofList n (as ++ [a]) := by
  have hk : n - as.length = (n - as.length - 1) + 1 := by omega
  have hlen : (as.map some).length ≤ as.length := Nat.le_of_eq (List.length_map some)
  rw [ofList, ofList, List.set_append_right _ _ hlen, List.length_map,
    Nat.sub_self, hk, List.replicate_succ, List.set_cons_zero, List.map_append, List.append_assoc,
    List.length_append, List.length_singleton, Nat.sub_sub]
  rfl

/-- The first empty slot is empty. -/
theorem ofList_set_length_none : (ofList n as).set as.length none = ofList n as := by
  have hlen : (as.map some).length ≤ as.length := Nat.le_of_eq (List.length_map some)
  rw [ofList, List.set_append_right _ _ hlen, List.length_map, Nat.sub_self]
  cases n - as.length <;> rfl

/-- **Empty the last slot that is in use.** -/
theorem ofList_set_none (h : as.length < n) (a : α) :
    (ofList n (as ++ [a])).set as.length none = ofList n as := by
  rw [← ofList_set h, List.set_set, ofList_set_length_none]

/-- Room is made at the end, or what is last goes. -/
theorem dropLast_ofList (h : as.length ≤ n + 1) :
    (ofList (n + 1) as).dropLast = ofList n (as.take n) := by
  have hlen : (ofList (n + 1) as).length - 1 = n := by rw [length_ofList h, Nat.add_sub_cancel]
  have hempty : min (n - as.length) (n + 1 - as.length) = n - min n as.length := by omega
  rw [List.dropLast_eq_take, hlen, ofList, ofList, List.take_append, List.length_map,
    List.take_replicate, hempty, List.map_take, List.length_take]

theorem cons_ofList (a : α) (as : List α) : some a :: ofList n as = ofList (n + 1) (a :: as) := by
  rw [ofList, ofList, List.map_cons, List.length_cons, Nat.add_sub_add_right]
  rfl

/-- **Put an entry in front.** -/
theorem cons_dropLast_ofList (h : as.length ≤ n + 1) (a : α) :
    some a :: (ofList (n + 1) as).dropLast = ofList (n + 1) (a :: as.take n) := by
  rw [dropLast_ofList h, cons_ofList]

theorem map_append_cons (xs ys : List α) (p : α) :
    ofList n (xs ++ p :: ys)
      = xs.map some ++ some p :: (ys.map some
        ++ List.replicate (n - (xs ++ p :: ys).length) none) := by
  rw [ofList, List.map_append, List.map_cons, List.append_assoc]
  rfl

/-- **An entry in front of the others**, which are in some order. -/
theorem swapFront_ofList (xs ys : List α) (p : α) : ∃ bs,
    swapFront (ofList n (xs ++ p :: ys)) xs.length = ofList n (p :: bs)
      ∧ (p :: bs).Perm (xs ++ p :: ys) := by
  cases xs with
  | nil =>
    refine ⟨ys, ?_, List.Perm.refl _⟩
    rw [map_append_cons]
    rfl
  | cons a xs =>
    have hget : (ofList n (a :: xs ++ p :: ys)).getD (a :: xs).length none = some p := by
      rw [map_append_cons, List.getD_append_right _ _ _ _ (Nat.le_of_eq (List.length_map some)),
        List.length_map, Nat.sub_self, List.getD_cons_zero]
    refine ⟨xs ++ a :: ys, ?_, ?_⟩
    · have hlen : (p :: xs ++ a :: ys).length = (a :: (xs ++ p :: ys)).length := by
        simp
      rw [swapFront, hget, map_append_cons, List.map_cons, List.cons_append, List.set_cons_zero,
        List.getD_cons_zero, List.length_cons, List.set_cons_succ,
        List.set_append_right _ _ (Nat.le_of_eq (List.length_map some)), List.length_map,
        Nat.sub_self, List.set_cons_zero, ← @List.cons_append _ p xs (a :: ys), map_append_cons,
          hlen]
      rfl
    · exact ((List.perm_middle).cons p).trans
        ((List.Perm.swap a p _).trans ((List.perm_middle.symm).cons a))

/-- Where everything moves up, the first slot can be filled again. -/
theorem moveUp_set_zero (slots : List (Option α)) (hne : slots ≠ []) (x : Option α) :
    (moveUp slots).set 0 x = x :: slots.dropLast := by
  obtain ⟨slot, slots, rfl⟩ := List.exists_cons_of_ne_nil hne
  rfl

end Slots

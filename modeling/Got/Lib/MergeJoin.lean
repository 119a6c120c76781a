import Got.Lib.OrderedList
import Mathlib.Order.Basic
import Mathlib.Order.Lattice

/-!
# Joining two lists in order

Two lists that are in the order of their keys can be compared by walking over
both at once: an element is met either together with the element of the other
list that has the same key, or alone. `IsJoin` says what a comparison is, and
`isJoin_join` that the walk makes one.

In some comparisons, elements of the second list are skipped: such an element
is not met, and neither is the one which has the same key. `isJoin_filter_iff`
says when this goes unnoticed.
-/

namespace MergeJoin

variable {α β κ : Type*} [LinearOrder κ]

/-- What is met on the walk. -/
inductive Joined (α β : Type*)
  | both (a : α) (b : β)
  | left (a : α)
  | right (b : β)
  deriving DecidableEq

/-- The key of what is met. -/
def Joined.key (keyA : α → κ) (keyB : β → κ) : Joined α β → κ
  | .both a _ => keyA a
  | .left a => keyA a
  | .right b => keyB b

/-- **The walk over both lists.** -/
def join (keyA : α → κ) (keyB : β → κ) : List α → List β → List (Joined α β)
  | [], bs => bs.map .right
  | a :: as, [] => (a :: as).map .left
  | a :: as, b :: bs =>
    if keyA a < keyB b then .left a :: join keyA keyB as (b :: bs)
    else if keyB b < keyA a then .right b :: join keyA keyB (a :: as) bs
    else .both a b :: join keyA keyB as bs
termination_by as bs => as.length + bs.length

variable (keyA : α → κ) (keyB : β → κ)

/-- **A comparison of two lists**: everything is met once, in order, and
together with what has the same key. -/
structure IsJoin (as : List α) (bs : List β) (js : List (Joined α β)) : Prop where
  inOrder : js.Pairwise (fun j j' => j.key keyA keyB < j'.key keyA keyB)
  both_mem : ∀ a b, .both a b ∈ js ↔ a ∈ as ∧ b ∈ bs ∧ keyA a = keyB b
  left_mem : ∀ a, .left a ∈ js ↔ a ∈ as ∧ ∀ b ∈ bs, keyA a ≠ keyB b
  right_mem : ∀ b, .right b ∈ js ↔ b ∈ bs ∧ ∀ a ∈ as, keyA a ≠ keyB b

variable {keyA keyB} {as as' : List α} {bs bs' : List β} {a : α} {b : β}

theorem join_nil_left : join keyA keyB [] bs = bs.map .right := by rw [join]

theorem join_nil_right : join keyA keyB as [] = as.map .left := by
  cases as with
  | nil => rw [join, List.map_nil, List.map_nil]
  | cons a as => rw [join]

theorem join_of_lt (h : keyA a < keyB b) :
    join keyA keyB (a :: as) (b :: bs) = .left a :: join keyA keyB as (b :: bs) := by
  rw [join, if_pos h]

theorem join_of_gt (h : keyB b < keyA a) :
    join keyA keyB (a :: as) (b :: bs) = .right b :: join keyA keyB (a :: as) bs := by
  rw [join, if_neg (lt_asymm h), if_pos h]

theorem join_of_eq (h : keyA a = keyB b) :
    join keyA keyB (a :: as) (b :: bs) = .both a b :: join keyA keyB as bs := by
  rw [join, if_neg (not_lt_of_ge h.ge), if_neg (not_lt_of_ge h.le)]

/-- An element of the second list that comes first. -/
theorem join_cons_right (h : ∀ a ∈ as, keyB b < keyA a) :
    join keyA keyB as (b :: bs) = .right b :: join keyA keyB as bs := by
  cases as with
  | nil => rw [join_nil_left, join_nil_left, List.map_cons]
  | cons a as => exact join_of_gt (h a List.mem_cons_self)

/-- An element of the first list that comes first. -/
theorem join_cons_left (h : ∀ b ∈ bs, keyA a < keyB b) :
    join keyA keyB (a :: as) bs = .left a :: join keyA keyB as bs := by
  cases bs with
  | nil => rw [join_nil_right, join_nil_right, List.map_cons]
  | cons b bs => exact join_of_lt (h b List.mem_cons_self)

/-- **What comes later is met later.** -/
theorem join_append (hab : ∀ a ∈ as, ∀ b ∈ bs', keyA a < keyB b)
    (hba : ∀ b ∈ bs, ∀ a ∈ as', keyB b < keyA a) :
    join keyA keyB (as ++ as') (bs ++ bs') = join keyA keyB as bs ++ join keyA keyB as' bs' := by
  induction as, bs using join.induct keyA keyB with
  | case1 bs =>
    rw [List.nil_append, join_nil_left]
    induction bs with
    | nil => rfl
    | cons b bs ih =>
      rw [List.cons_append, join_cons_right (hba b List.mem_cons_self),
        ih fun c hc => hba c (List.mem_cons_of_mem b hc)]
      rfl
  | case2 a as =>
    rw [List.nil_append, join_nil_right]
    clear hba
    induction as generalizing a with
    | nil => rw [List.singleton_append, join_cons_left (hab a List.mem_cons_self)]; rfl
    | cons c as ih =>
      rw [List.cons_append, join_cons_left (hab a List.mem_cons_self),
        ih c fun d hd => hab d (List.mem_cons_of_mem a hd)]
      rfl
  | case3 a as b bs h ih =>
    rw [List.cons_append, List.cons_append, join_of_lt h, join_of_lt h, List.cons_append,
      ← ih (fun c hc => hab c (List.mem_cons_of_mem a hc)) hba, List.cons_append]
  | case4 a as b bs h h' ih =>
    rw [List.cons_append, List.cons_append, join_of_gt h', join_of_gt h', List.cons_append,
      ← ih hab (fun c hc => hba c (List.mem_cons_of_mem b hc)), List.cons_append]
  | case5 a as b bs h h' ih =>
    have heq : keyA a = keyB b := le_antisymm (not_lt.mp h') (not_lt.mp h)
    rw [List.cons_append, List.cons_append, join_of_eq heq, join_of_eq heq, List.cons_append,
      ← ih (fun c hc => hab c (List.mem_cons_of_mem a hc))
        (fun c hc => hba c (List.mem_cons_of_mem b hc))]

/-- What is met has the key of an element. -/
theorem IsJoin.key_of_mem {js : List (Joined α β)} (h : IsJoin keyA keyB as bs js) {j : Joined α β}
    (hj : j ∈ js) :
    (∃ a ∈ as, j.key keyA keyB = keyA a) ∨ ∃ b ∈ bs, j.key keyA keyB = keyB b := by
  cases j with
  | both a b => exact Or.inl ⟨a, ((h.both_mem a b).mp hj).1, rfl⟩
  | left a => exact Or.inl ⟨a, ((h.left_mem a).mp hj).1, rfl⟩
  | right b => exact Or.inr ⟨b, ((h.right_mem b).mp hj).1, rfl⟩

/-- **The walk makes a comparison.** -/
theorem isJoin_join (ha : as.Pairwise (fun a a' => keyA a < keyA a'))
    (hb : bs.Pairwise (fun b b' => keyB b < keyB b')) :
    IsJoin keyA keyB as bs (join keyA keyB as bs) := by
  induction as, bs using join.induct keyA keyB with
  | case1 bs =>
    rw [join_nil_left]
    exact ⟨List.pairwise_map.mpr hb, by simp, by simp, by simp⟩
  | case2 a as =>
    rw [join_nil_right]
    exact ⟨List.pairwise_map.mpr ha, by simp, by simp, by simp⟩
  | case3 a as b bs h ih =>
    obtain ⟨ha, has⟩ := List.pairwise_cons.mp ha
    have ih := ih has hb
    have hb' := (List.pairwise_cons.mp hb).1
    have hlt : ∀ b' ∈ b :: bs, keyA a < keyB b' := fun b' hb'' => by
      rcases List.mem_cons.mp hb'' with rfl | hb''
      · exact h
      · exact h.trans (hb' b' hb'')
    rw [join_of_lt h]
    refine ⟨List.pairwise_cons.mpr ⟨fun j hj => ?_, ih.inOrder⟩, fun a' b' => ?_, fun a' => ?_,
      fun b' => ?_⟩
    · rcases ih.key_of_mem hj with ⟨a', ha', heq⟩ | ⟨b', hb'', heq⟩
      · exact (ha a' ha').trans_eq heq.symm
      · exact (hlt b' hb'').trans_eq heq.symm
    · have := ih.both_mem a' b'
      grind
    · have := ih.left_mem a'
      grind
    · have := ih.right_mem b'
      grind
  | case4 a as b bs h h' ih =>
    obtain ⟨hb, hbs⟩ := List.pairwise_cons.mp hb
    have ih := ih ha hbs
    have ha' := (List.pairwise_cons.mp ha).1
    have hlt : ∀ a' ∈ a :: as, keyB b < keyA a' := fun a' ha'' => by
      rcases List.mem_cons.mp ha'' with rfl | ha''
      · exact h'
      · exact h'.trans (ha' a' ha'')
    rw [join_of_gt h']
    refine ⟨List.pairwise_cons.mpr ⟨fun j hj => ?_, ih.inOrder⟩, fun a' b' => ?_, fun a' => ?_,
      fun b' => ?_⟩
    · rcases ih.key_of_mem hj with ⟨a', ha', heq⟩ | ⟨b', hb'', heq⟩
      · exact (hlt a' ha').trans_eq heq.symm
      · exact (hb b' hb'').trans_eq heq.symm
    · have := ih.both_mem a' b'
      grind
    · have := ih.left_mem a'
      grind
    · have := ih.right_mem b'
      grind
  | case5 a as b bs h h' ih =>
    have heq : keyA a = keyB b := le_antisymm (not_lt.mp h') (not_lt.mp h)
    obtain ⟨ha, has⟩ := List.pairwise_cons.mp ha
    obtain ⟨hb, hbs⟩ := List.pairwise_cons.mp hb
    have ih := ih has hbs
    rw [join_of_eq heq]
    refine ⟨List.pairwise_cons.mpr ⟨fun j hj => ?_, ih.inOrder⟩, fun a' b' => ?_, fun a' => ?_,
      fun b' => ?_⟩
    · rcases ih.key_of_mem hj with ⟨a', ha', hkey⟩ | ⟨b', hb', hkey⟩
      · exact (ha a' ha').trans_eq hkey.symm
      · exact heq.trans_lt ((hb b' hb').trans_eq hkey.symm)
    · have := ih.both_mem a' b'
      grind
    · have := ih.left_mem a'
      grind
    · have := ih.right_mem b'
      grind

/-! ## Skipping elements -/

/-- Whether something is met if elements of the second list are skipped. One
that is alone is skipped only if there is nothing `more` in the first list. -/
def isMet (skip : β → Bool) (more : κ → Bool) (keyB : β → κ) : Joined α β → Bool
  | .both _ b => !skip b
  | .left _ => true
  | .right b => !skip b || more (keyB b)

/-- **When skipping goes unnoticed**: a comparison of `ls` with the elements
that are not to be skipped is made exactly if `ls` are the elements that no
element to be skipped takes with it, and each of these takes one with it, or
is met when there is nothing more. -/
theorem isJoin_filter_iff {ls : List α} {skip : β → Bool} {more : κ → Bool}
    (ha : as.Pairwise (fun a a' => keyA a < keyA a'))
    (hb : bs.Pairwise (fun b b' => keyB b < keyB b'))
    (hl : ls.Pairwise (fun a a' => keyA a < keyA a')) :
    IsJoin keyA keyB ls (bs.filter (fun b => !skip b))
        ((join keyA keyB as bs).filter (isMet skip more keyB)) ↔
      as.filter (fun a => ¬∃ b ∈ bs, skip b ∧ keyA a = keyB b) = ls
        ∧ ∀ b ∈ bs, skip b → (∃ a ∈ as, keyA a = keyB b) ∨ more (keyB b) = false := by
  have hj := isJoin_join ha hb
  have hinj : ∀ b ∈ bs, ∀ b' ∈ bs, keyB b = keyB b' → b = b' := fun b hb' b' hb'' heq =>
    OrderedList.InOrder.key_inj hb hb' hb'' heq
  constructor
  · intro h
    refine ⟨OrderedList.InOrder.ext (List.Pairwise.filter _ ha) hl fun a => ?_,
      fun b hmem hskip => ?_⟩
    · -- an element is met either with what has the same key, or alone
      have hboth := fun b => h.both_mem a b
      have hboth' := fun b => hj.both_mem a b
      have hleft := h.left_mem a
      have hleft' := hj.left_mem a
      simp only [List.mem_filter, isMet] at hboth hleft ⊢
      by_cases hex : ∃ b ∈ bs, keyA a = keyB b
      · obtain ⟨b, hmem, heq⟩ := hex
        grind
      · grind
    · have hright := h.right_mem b
      have hright' := hj.right_mem b
      simp only [List.mem_filter, isMet] at hright
      grind
  · rintro ⟨rfl, hmore⟩
    refine ⟨List.Pairwise.filter _ hj.inOrder, fun a b => ?_, fun a => ?_, fun b => ?_⟩
    · have hboth := hj.both_mem a b
      simp only [List.mem_filter, isMet]
      grind
    · have hleft := hj.left_mem a
      simp only [List.mem_filter, isMet]
      grind
    · have hright := hj.right_mem b
      simp only [List.mem_filter, isMet]
      grind

end MergeJoin

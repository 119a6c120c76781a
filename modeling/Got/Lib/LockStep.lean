import Mathlib.Data.List.Nodup

/-!
# Two lists in lock step

Two lists are gone through in lock step, and all elements that were met are put into
one set. The search stops at the first element that is in the set
already.

If the lists have a common tail, and nothing else in common, this is where the tail
begins (`lockStep_eq`), no matter how much longer one list is than the other: the
list that is shorter before the tail gets there first, and then goes through the
tail without meeting anything twice, until the other one gets there.
-/

namespace LockStep

variable {α : Type*} {n : ℕ} {l l' r a b s seen : List α} {x y : α}

/-- Distinct elements, none of which was met before. -/
def Fresh (seen l : List α) : Prop := l.Nodup ∧ ∀ x ∈ l, x ∉ seen

theorem Fresh.perm (h : Fresh seen l) (hperm : l.Perm l') : Fresh seen l' :=
  ⟨hperm.nodup_iff.mp h.1, fun x hx => h.2 x (hperm.mem_iff.mpr hx)⟩

theorem Fresh.head? (h : Fresh seen (l ++ r)) : ∀ x ∈ l.head?, x ∉ seen := fun x hx =>
  h.2 x (List.mem_append_left r (List.mem_of_mem_head? hx))

theorem Fresh.head?_right (h : Fresh seen (l ++ l' ++ r)) :
    ∀ y ∈ l'.head?, y ∉ l.head?.toList ++ seen := by
  intro y hy hmem
  have hy' := List.mem_of_mem_head? hy
  rcases List.mem_append.mp hmem with hmem | hmem
  · have hl := List.mem_of_mem_head? (Option.mem_toList.mp hmem)
    exact List.disjoint_of_nodup_append (List.nodup_append.mp h.1).1 hl hy'
  · exact h.2 y (List.mem_append_left r (List.mem_append_right l hy')) hmem

/-- What comes behind the first elements of two lists is fresh when they were
met. -/
theorem Fresh.tail (h : Fresh seen (l ++ l' ++ r)) :
    Fresh (l'.head?.toList ++ (l.head?.toList ++ seen)) (l.tail ++ l'.tail ++ r) := by
  obtain ⟨hnodup, hseen⟩ := h
  have hperm : (l ++ l' ++ r).Perm
      ((l'.head?.toList ++ l.head?.toList) ++ (l.tail ++ l'.tail ++ r)) := by
    match l, l' with
    | [], [] => exact List.Perm.refl _
    | [], y :: l' => exact List.Perm.refl _
    | x :: l, [] => exact List.Perm.refl _
    | x :: l, y :: l' =>
      show (((x :: l) ++ y :: l') ++ r).Perm ((y :: x :: (l ++ l')) ++ r)
      exact List.perm_middle.append_right r
  have hnodup' := hperm.nodup_iff.mp hnodup
  refine ⟨(List.nodup_append.mp hnodup').2.1, fun x hx hmem => ?_⟩
  rw [← List.append_assoc] at hmem
  rcases List.mem_append.mp hmem with hmem | hmem
  · exact List.disjoint_of_nodup_append hnodup' hmem hx
  · exact hseen x (hperm.mem_iff.mpr (List.mem_append_right _ hx)) hmem

variable [DecidableEq α]

/-- **The search**, with what was met before, for a number of rounds. -/
def lockStep : ℕ → List α → List α → List α → Option α
  | 0, _, _, _ => none
  | n + 1, l, l', seen =>
    match l.head?.filter (· ∈ seen) with
    | some x => some x
    | none =>
      match l'.head?.filter (· ∈ l.head?.toList ++ seen) with
      | some y => some y
      | none => lockStep n l.tail l'.tail (l'.head?.toList ++ (l.head?.toList ++ seen))

theorem filter_mem_eq_none {o : Option α} (h : ∀ x ∈ o, x ∉ seen) : o.filter (· ∈ seen) = none := by
  cases o with
  | none => rfl
  | some x => exact Option.filter_eq_none_iff.mpr fun y hy => by simpa using h y hy

/-- **A round** in which nothing was met again. -/
theorem lockStep_new (hl : ∀ x ∈ l.head?, x ∉ seen)
    (hl' : ∀ y ∈ l'.head?, y ∉ l.head?.toList ++ seen) :
    lockStep (n + 1) l l' seen
      = lockStep n l.tail l'.tail (l'.head?.toList ++ (l.head?.toList ++ seen)) := by
  rw [lockStep, filter_mem_eq_none hl, filter_mem_eq_none hl']

theorem lockStep_nil (n : ℕ) (seen : List α) : lockStep n [] [] seen = none := by
  induction n generalizing seen with
  | zero => rfl
  | succ n ih => exact ih _

theorem lockStep_fresh (l l' : List α) (h : Fresh seen (a ++ b ++ r)) (hl : l.head? = a.head?)
    (hl' : l'.head? = b.head?) :
    lockStep (n + 1) l l' seen
      = lockStep n l.tail l'.tail (b.head?.toList ++ (a.head?.toList ++ seen)) := by
  have hfresh : ∀ x ∈ a.head?, x ∉ seen := (List.append_assoc a b r ▸ h).head?
  rw [lockStep_new (hl.symm ▸ hfresh) (hl.symm ▸ hl'.symm ▸ h.head?_right), hl, hl']

theorem lockStep_left (hx : x ∈ seen) : lockStep (n + 1) (x :: l) l' seen = some x := by
  rw [lockStep, List.head?_cons, Option.filter_some, if_pos (decide_eq_true hx)]

theorem lockStep_right (hl : ∀ x ∈ l.head?, x ∉ seen) (hy : y ∈ l.head?.toList ++ seen) :
    lockStep (n + 1) l (y :: l') seen = some y := by
  rw [lockStep, filter_mem_eq_none hl, List.head?_cons, Option.filter_some,
    if_pos (decide_eq_true hy)]

/-- **Without common elements** nothing is found. -/
theorem lockStep_eq_none (h : Fresh seen (l ++ l' ++ r)) : lockStep n l l' seen = none := by
  induction n generalizing l l' seen with
  | zero => rfl
  | succ n ih =>
    rw [lockStep_fresh l l' h rfl rfl]
    exact ih h.tail

/-- The first list is in the tail: what the second one comes to is found. -/
theorem lockStep_of_left (hx : x ∈ seen) (h : Fresh seen (l ++ b ++ r)) (hn : b.length < n) :
    lockStep n l (b ++ x :: s) seen = some x := by
  induction b generalizing n l seen with
  | nil =>
    obtain ⟨n, rfl⟩ := Nat.exists_eq_succ_of_ne_zero (Nat.ne_of_gt hn)
    exact lockStep_right (List.append_assoc l [] r ▸ h).head? (List.mem_append_right _ hx)
  | cons y b ih =>
    obtain ⟨n, rfl⟩ := Nat.exists_eq_succ_of_ne_zero (Nat.ne_of_gt (Nat.zero_lt_of_lt hn))
    refine (lockStep_fresh l (y :: b ++ x :: s) h rfl rfl).trans ?_
    exact ih (List.mem_append_right _ (List.mem_append_right _ hx)) h.tail
      (Nat.lt_of_succ_lt_succ hn)

/-- The second list is in the tail: what the first one comes to is found. -/
theorem lockStep_of_right (hx : x ∈ seen) (h : Fresh seen (a ++ l' ++ r)) (hn : a.length < n) :
    lockStep n (a ++ x :: s) l' seen = some x := by
  induction a generalizing n l' seen with
  | nil =>
    obtain ⟨n, rfl⟩ := Nat.exists_eq_succ_of_ne_zero (Nat.ne_of_gt hn)
    exact lockStep_left hx
  | cons y a ih =>
    obtain ⟨n, rfl⟩ := Nat.exists_eq_succ_of_ne_zero (Nat.ne_of_gt (Nat.zero_lt_of_lt hn))
    refine (lockStep_fresh (y :: a ++ x :: s) l' h rfl rfl).trans ?_
    exact ih (List.mem_append_right _ (List.mem_append_right _ hx)) h.tail
      (Nat.lt_of_succ_lt_succ hn)

/-- **With a common tail** its first element is found. -/
theorem lockStep_eq_some (h : Fresh seen (a ++ b ++ x :: s)) (ha : a.length < n)
    (hb : b.length < n) : lockStep n (a ++ x :: s) (b ++ x :: s) seen = some x := by
  induction a generalizing n b seen with
  | nil =>
    obtain ⟨n, rfl⟩ := Nat.exists_eq_succ_of_ne_zero (Nat.ne_of_gt ha)
    cases b with
    | nil =>
      -- both are at the tail
      exact lockStep_right (fun z hz => h.2 z (List.mem_of_mem_head? hz)) List.mem_cons_self
    | cons y b =>
      have h' : Fresh seen ((x :: s) ++ (y :: b) ++ []) :=
        h.perm (by rw [List.append_nil]; exact List.perm_append_comm)
      refine (lockStep_fresh (x :: s) (y :: b ++ x :: s) h' rfl rfl).trans ?_
      exact lockStep_of_left (List.mem_append_right _ List.mem_cons_self) h'.tail
        (Nat.lt_of_succ_lt_succ hb)
  | cons y a ih =>
    obtain ⟨n, rfl⟩ := Nat.exists_eq_succ_of_ne_zero (Nat.ne_of_gt (Nat.zero_lt_of_lt ha))
    cases b with
    | nil =>
      have h' : Fresh seen ((y :: a) ++ (x :: s) ++ []) := h.perm (by simp)
      refine (lockStep_fresh (y :: a ++ x :: s) (x :: s) h' rfl rfl).trans ?_
      exact lockStep_of_right List.mem_cons_self h'.tail (Nat.lt_of_succ_lt_succ ha)
    | cons z b =>
      refine (lockStep_fresh (y :: a ++ x :: s) (z :: b ++ x :: s) h rfl rfl).trans ?_
      exact ih h.tail (Nat.lt_of_succ_lt_succ ha) (Nat.lt_of_succ_lt_succ hb)

omit [DecidableEq α] in
/-- Two disjoint lists in front of the same rest hold nothing twice. -/
theorem nodup_append_append (h : (a ++ s).Nodup) (h' : (b ++ s).Nodup) (hab : a.Disjoint b) :
    (a ++ b ++ s).Nodup := by
  obtain ⟨ha, hs, has⟩ := List.nodup_append.mp h
  obtain ⟨hb, -, hbs⟩ := List.nodup_append.mp h'
  refine List.nodup_append.mpr ⟨List.nodup_append.mpr ⟨ha, hb, fun x hx y hy heq => ?_⟩, hs,
    fun x hx => ?_⟩
  · exact hab hx (heq ▸ hy)
  · rcases List.mem_append.mp hx with hx | hx
    · exact has x hx
    · exact hbs x hx

/-- **What is found** is where the common tail begins. -/
theorem lockStep_eq (h : (a ++ b ++ s).Nodup) (ha : a.length < n) (hb : b.length < n) :
    lockStep n (a ++ s) (b ++ s) [] = s.head? := by
  have hfresh : Fresh [] (a ++ b ++ s) := ⟨h, fun x _ => List.not_mem_nil⟩
  cases s with
  | nil =>
    rw [List.append_nil a, List.append_nil b]
    exact lockStep_eq_none hfresh
  | cons x s => exact lockStep_eq_some hfresh ha hb

/-- And so is what one list has first that is in the other one. -/
theorem find?_eq (h : (a ++ b ++ s).Nodup) :
    (a ++ s).find? (· ∈ b ++ s) = s.head? := by
  obtain ⟨hab, -, hs⟩ := List.nodup_append.mp h
  have hnone : a.find? (· ∈ b ++ s) = none := by
    refine List.find?_eq_none.mpr fun x hx hmem => ?_
    rcases List.mem_append.mp (of_decide_eq_true hmem) with hmem | hmem
    · exact List.disjoint_of_nodup_append hab hx hmem
    · exact hs x (List.mem_append_left b hx) x hmem rfl
  rw [List.find?_append, hnone, Option.none_or]
  cases s with
  | nil => rfl
  | cons x s =>
    exact List.find?_cons_of_pos (decide_eq_true (List.mem_append_right b List.mem_cons_self))

end LockStep

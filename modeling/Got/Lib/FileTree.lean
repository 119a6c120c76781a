import Mathlib.Data.List.Infix
import Mathlib.Logic.Function.Basic

/-!
# Trees of files

A tree of files is a partial function from paths to nodes, where a path is a
list of names. It has finitely many nodes, and each of them, the root apart, is
in a node that is a directory. That is kept by the operations: a node is put
only where there is a directory for it, and taken away only if nothing is below
it.

After a node is taken away the directories on the way to it may be left empty.
To prune is to take these away too, from the bottom up. What is pruned is what
nothing else needs (`prune_node`): a directory stays if there is anything in it,
at any depth, that is not on the way itself.
-/

/-- **A tree of files**: the node at each path, and the paths where there is
one. -/
structure FileTree (α ν : Type*) (isDir : ν → Bool) where
  node : List α → Option ν
  paths : List (List α)
  mem_paths : ∀ p, p ∈ paths ↔ (node p).isSome
  parent_isDir : ∀ p a, (node (p ++ [a])).isSome → ∃ d, node p = some d ∧ isDir d

namespace FileTree

variable {α ν : Type*} {isDir : ν → Bool}

/-! ## What is below a path -/

/-- There is nothing in the directory at a path. -/
def IsEmpty (t : FileTree α ν isDir) (p : List α) : Prop := ∀ a, t.node (p ++ [a]) = none

/-- Whatever is below a path is below, or at, one that is one name longer. -/
theorem node_isSome_of_append {t : FileTree α ν isDir} {p l : List α}
    (h : (t.node (p ++ l)).isSome) : (t.node p).isSome := by
  induction l using List.reverseRecOn with
  | nil => rwa [List.append_nil] at h
  | append_singleton l a ih =>
    rw [← List.append_assoc] at h
    obtain ⟨d, hd, -⟩ := t.parent_isDir _ _ h
    exact ih (by rw [hd]; rfl)

/-- **Whatever there is on the way to a node is a directory.** -/
theorem isDir_of_isPrefix {t : FileTree α ν isDir} {p q : List α} (hq : (t.node q).isSome)
    (hpq : p <+: q) (hne : p ≠ q) : ∃ d, t.node p = some d ∧ isDir d := by
  obtain ⟨l, rfl⟩ := hpq
  cases l with
  | nil => exact absurd (List.append_nil p).symm hne
  | cons a l =>
    refine t.parent_isDir p a (node_isSome_of_append (l := l) ?_)
    rwa [List.append_assoc]

/-- Below an empty directory there is nothing at all. -/
theorem IsEmpty.eq_of_isPrefix {t : FileTree α ν isDir} {p q : List α} (h : t.IsEmpty p)
    (hq : (t.node q).isSome) (hpq : p <+: q) : q = p := by
  obtain ⟨l, rfl⟩ := hpq
  cases l with
  | nil => exact List.append_nil p
  | cons a l =>
    have ha : (t.node (p ++ [a])).isSome := by
      refine node_isSome_of_append (l := l) ?_
      rwa [List.append_assoc]
    rw [h a] at ha
    exact absurd ha Bool.false_ne_true

/-- A node that is not a directory has nothing below it. -/
theorem isEmpty_of_not_isDir {t : FileTree α ν isDir} {p : List α} {v : ν}
    (h : t.node p = some v) (hv : isDir v = false) : t.IsEmpty p := by
  intro a
  rw [← Option.not_isSome_iff_eq_none]
  intro ha
  obtain ⟨d, hd, hdir⟩ := t.parent_isDir p a ha
  rw [h, Option.some_inj] at hd
  rw [hd, hdir] at hv
  exact nomatch hv

/-- Nor is there anything below a path where there is nothing. -/
theorem isEmpty_of_eq_none {t : FileTree α ν isDir} {p : List α} (h : t.node p = none) :
    t.IsEmpty p := by
  intro a
  rw [← Option.not_isSome_iff_eq_none]
  intro ha
  obtain ⟨d, hd, -⟩ := t.parent_isDir p a ha
  exact absurd (h.symm.trans hd) (Option.some_ne_none d).symm

/-- A directory is empty when no path of the tree is right below it. -/
theorem isEmpty_iff (t : FileTree α ν isDir) (p : List α) :
    t.IsEmpty p ↔ ∀ q ∈ t.paths, q = [] ∨ q.dropLast ≠ p := by
  constructor
  · intro h q hq
    rcases List.eq_nil_or_concat q with hnil | ⟨q', a, rfl⟩
    · exact Or.inl hnil
    · refine Or.inr fun hp => ?_
      rw [t.mem_paths, List.concat_eq_append] at hq
      rw [List.concat_eq_append, List.dropLast_concat] at hp
      rw [hp, h a] at hq
      exact nomatch hq
  · intro h a
    rw [← Option.not_isSome_iff_eq_none, ← t.mem_paths]
    intro ha
    rcases h _ ha with hnil | hne
    · exact absurd hnil (List.append_ne_nil_of_right_ne_nil p (List.cons_ne_nil a []))
    · exact hne List.dropLast_concat

variable [DecidableEq α]

instance (t : FileTree α ν isDir) (p : List α) : Decidable (t.IsEmpty p) :=
  decidable_of_iff _ (t.isEmpty_iff p).symm

/-! ## Operations -/

/-- A tree with nothing but its root. -/
def ofRoot (v : ν) : FileTree α ν isDir where
  node p := if p = [] then some v else none
  paths := [[]]
  mem_paths p := by
    rw [List.mem_singleton]
    by_cases h : p = []
    · exact iff_of_true h (by rw [if_pos h]; rfl)
    · exact iff_of_false h (by rw [if_neg h]; exact Bool.false_ne_true)
  parent_isDir p a h := by
    rw [if_neg (List.append_ne_nil_of_right_ne_nil p (List.cons_ne_nil a []))] at h
    exact nomatch h

/-- **Take a node away** that has nothing below it. -/
def erase (t : FileTree α ν isDir) (p : List α) (h : t.IsEmpty p) : FileTree α ν isDir where
  node := Function.update t.node p none
  paths := t.paths.filter (fun q => q ≠ p)
  mem_paths q := by
    rw [List.mem_filter, t.mem_paths, decide_eq_true_iff]
    by_cases hq : q = p
    · subst hq
      rw [Function.update_self]
      exact ⟨fun hq => absurd rfl hq.2, fun hq => (nomatch hq)⟩
    · rw [Function.update_of_ne hq]
      exact and_iff_left hq
  parent_isDir q a hq := by
    have hne : q ++ [a] ≠ p := by
      rintro rfl
      rw [Function.update_self] at hq
      exact nomatch hq
    rw [Function.update_of_ne hne] at hq
    have hqp : q ≠ p := by
      rintro rfl
      rw [h a] at hq
      exact nomatch hq
    rw [Function.update_of_ne hqp]
    exact t.parent_isDir q a hq

/-- **Put a node** where there is a directory for it. What was there is replaced,
unless there is something below it. -/
def put (t : FileTree α ν isDir) (p : List α) (v : ν)
    (hdir : ∃ d, t.node p.dropLast = some d ∧ isDir d) (h : t.IsEmpty p) : FileTree α ν isDir where
  node := Function.update t.node p (some v)
  paths := p :: t.paths
  mem_paths q := by
    rw [List.mem_cons, t.mem_paths]
    by_cases hq : q = p
    · subst hq
      rw [Function.update_self]
      exact ⟨fun _ => rfl, fun _ => Or.inl rfl⟩
    · rw [Function.update_of_ne hq]
      exact or_iff_right hq
  parent_isDir q b hq := by
    have hne : q ≠ p := by
      rintro rfl
      have hself : q ++ [b] ≠ q := fun hqb => absurd (congrArg List.length hqb) (by simp)
      rw [Function.update_of_ne hself, h b] at hq
      exact nomatch hq
    rw [Function.update_of_ne hne]
    by_cases hqb : q ++ [b] = p
    · rwa [← hqb, List.dropLast_concat] at hdir
    · rw [Function.update_of_ne hqb] at hq
      exact t.parent_isDir q b hq

section

variable {t : FileTree α ν isDir} {p : List α}

@[simp] theorem erase_node_self (h : t.IsEmpty p) : (t.erase p h).node p = none := by
  show Function.update t.node p none p = none
  rw [Function.update_self]

theorem erase_node_of_ne (h : t.IsEmpty p) {q : List α} (hq : q ≠ p) :
    (t.erase p h).node q = t.node q := by
  show Function.update t.node p none q = t.node q
  rw [Function.update_of_ne hq]

@[simp] theorem put_node_self {v : ν} (hdir : ∃ d, t.node p.dropLast = some d ∧ isDir d)
    (h : t.IsEmpty p) : (t.put p v hdir h).node p = some v := by
  show Function.update t.node p (some v) p = some v
  rw [Function.update_self]

end

/-! ## Pruning -/

/-- **Take away the directories that are left empty** on the way up from a path,
which is given in reverse. -/
def prune (t : FileTree α ν isDir) : List α → FileTree α ν isDir
  | [] => t
  | _ :: up => if h : t.IsEmpty up.reverse then prune (t.erase up.reverse h) up else t

/-- All there is below a path, or at it, is on the way to another one. -/
def OnlyWay (t : FileTree α ν isDir) (q p : List α) : Prop :=
  ∀ q', (t.node q').isSome → q <+: q' → q' <+: p

instance (t : FileTree α ν isDir) (q p : List α) : Decidable (t.OnlyWay q p) :=
  decidable_of_iff (∀ q' ∈ t.paths, q <+: q' → q' <+: p)
    (forall_congr' fun q' => imp_congr_left (t.mem_paths q'))

omit [DecidableEq α] in
theorem IsEmpty.onlyWay_self {t : FileTree α ν isDir} {p : List α} (h : t.IsEmpty p) :
    t.OnlyWay p p :=
  fun _ hq hpq => h.eq_of_isPrefix hq hpq ▸ List.prefix_rfl

omit [DecidableEq α] in
/-- A file is at the end of every way on which it is. -/
theorem onlyWay_self {t : FileTree α ν isDir} {p : List α} {v : ν} (h : t.node p = some v)
    (hv : isDir v = false) : t.OnlyWay p p :=
  (isEmpty_of_not_isDir h hv).onlyWay_self

omit [DecidableEq α] in
/-- A directory with something in it that is not on the way is never pruned. -/
theorem not_onlyWay_of_not_isEmpty {t : FileTree α ν isDir} {d q : List α} {a : α}
    (hnone : t.node (d ++ [a]) = none) (h : ¬t.IsEmpty d) (hq : q <+: d) :
    ¬t.OnlyWay q (d ++ [a]) := by
  intro honly
  refine h fun b => ?_
  rw [← Option.not_isSome_iff_eq_none]
  intro hb
  have hway := honly _ hb (hq.trans (List.prefix_append d [b]))
  have heq : d ++ [b] = d ++ [a] := hway.eq_of_length (by simp)
  rw [heq, hnone] at hb
  exact nomatch hb

/-- Taking away an empty directory makes the way shorter. -/
theorem onlyWay_erase_iff {t : FileTree α ν isDir} {d q : List α} {a : α}
    (hnone : t.node (d ++ [a]) = none) (h : t.IsEmpty d) :
    (t.erase d h).OnlyWay q d ↔ t.OnlyWay q (d ++ [a]) := by
  constructor
  · intro honly q' hq' hqq'
    by_cases hd : q' = d
    · exact hd ▸ List.prefix_append d [a]
    · refine (honly q' ?_ hqq').trans (List.prefix_append d [a])
      rwa [erase_node_of_ne h hd]
  · intro honly q' hq' hqq'
    have hd : q' ≠ d := by
      rintro rfl
      rw [erase_node_self] at hq'
      exact nomatch hq'
    rw [erase_node_of_ne h hd] at hq'
    rcases List.prefix_concat_iff.mp (honly q' hq' hqq') with heq | hpre
    · rw [heq, hnone] at hq'
      exact nomatch hq'
    · exact hpre

omit [DecidableEq α] in
/-- The way itself is all there is below an empty directory on it. -/
theorem IsEmpty.onlyWay {t : FileTree α ν isDir} {d : List α} (h : t.IsEmpty d) (a : α) :
    t.OnlyWay d (d ++ [a]) := by
  intro q' hq' hdq'
  rw [h.eq_of_isPrefix hq' hdq']
  exact List.prefix_append d [a]

/-- **What is pruned**: the directories on the way in which there is nothing but
the way. -/
theorem prune_node (t : FileTree α ν isDir) (rev : List α) (hnone : t.node rev.reverse = none)
    (q : List α) :
    (t.prune rev).node q
      = if q <+: rev.reverse ∧ t.OnlyWay q rev.reverse then none else t.node q := by
  induction rev generalizing t with
  | nil =>
    rw [prune]
    split
    · rename_i h
      rw [List.prefix_nil.mp h.1]
      exact hnone
    · rfl
  | cons a up ih =>
    rw [List.reverse_cons] at hnone ⊢
    rw [prune]
    by_cases hq : q <+: up.reverse
    · have hqa : q <+: up.reverse ++ [a] := hq.trans (List.prefix_append _ _)
      by_cases h : t.IsEmpty up.reverse
      · rw [dif_pos h, ih _ (erase_node_self h),
          if_congr (and_congr (iff_of_true hq hqa) (onlyWay_erase_iff hnone h)) rfl rfl]
        by_cases hself : q = up.reverse
        · -- the directory was empty, and is gone
          subst hself
          rw [erase_node_self, if_pos ⟨hqa, h.onlyWay a⟩, if_pos ⟨hqa, h.onlyWay a⟩]
        · rw [erase_node_of_ne h hself]
      · rw [dif_neg h, if_neg (fun h' => not_onlyWay_of_not_isEmpty hnone h hq h'.2)]
    · -- neither at the path itself nor beside the way anything changes
      have hother : (if q <+: up.reverse ++ [a] ∧ t.OnlyWay q (up.reverse ++ [a]) then none
          else t.node q) = t.node q := by
        split
        · rename_i h
          rw [(List.prefix_concat_iff.mp h.1).resolve_right hq, hnone]
        · rfl
      rw [hother]
      by_cases h : t.IsEmpty up.reverse
      · rw [dif_pos h, ih _ (erase_node_self h), if_neg (fun h' => hq h'.1),
          erase_node_of_ne h (fun h' => hq (h' ▸ List.prefix_rfl))]
      · rw [dif_neg h]

/-- **A node is taken away, and what is left empty is pruned**: all of the way to the
node of which there is nothing else. -/
theorem erase_prune_node (t : FileTree α ν isDir) (p : List α) (h : t.IsEmpty p) (q : List α) :
    ((t.erase p h).prune p.reverse).node q
      = if q <+: p ∧ t.OnlyWay q p then none else t.node q := by
  have hnone : (t.erase p h).node p.reverse.reverse = none := by
    rw [List.reverse_reverse, erase_node_self]
  have honly : (t.erase p h).OnlyWay q p ↔ t.OnlyWay q p := by
    refine forall_congr' fun q' => ?_
    by_cases hq' : q' = p
    · exact ⟨fun _ _ _ => hq' ▸ List.prefix_rfl, fun _ _ _ => hq' ▸ List.prefix_rfl⟩
    · rw [erase_node_of_ne h hq']
  rw [prune_node _ _ hnone, List.reverse_reverse, if_congr (and_congr_right fun _ => honly) rfl rfl]
  by_cases hq : q = p
  · subst hq
    rw [if_pos ⟨List.prefix_rfl, h.onlyWay_self⟩, if_pos ⟨List.prefix_rfl, h.onlyWay_self⟩]
  · rw [erase_node_of_ne h hq]

end FileTree

import Mathlib.Order.Compare
import Got.Path

/-!
# The order of paths

Paths are compared byte by byte, with a rank of its own for the separator and
with exceptions for separators that do not matter. On canonical paths this is
the lexicographic order of their lists of names (`gotPathCmp_canonicalPath`).
So it is a total order, and the paths below a directory follow the directory
at once, in one block: a list of names is followed by those it is a beginning
of.

A path list is kept in that order by insertion from its tail. What that does
is shown for any key by which the comparison of paths is the comparison of
keys, and then used for lists of paths, and for lists of names.
-/

namespace Got

/-! ## Comparisons -/

/-- The comparison of a linear order. -/
def linCmp {β : Type} [LinearOrder β] (x y : β) : Ordering := cmp x y

section LinCmp

variable {β : Type} [LinearOrder β] {x y : β}

theorem linCmp_eq_lt_iff : linCmp x y = .lt ↔ x < y := cmp_eq_lt_iff x y

theorem linCmp_eq_eq_iff : linCmp x y = .eq ↔ x = y := cmp_eq_eq_iff x y

theorem linCmp_eq_gt_iff : linCmp x y = .gt ↔ y < x := cmp_eq_gt_iff x y

theorem linCmp_self (x : β) : linCmp x x = .eq := cmp_self_eq_eq x

theorem linCmp_swap (x y : β) : linCmp y x = (linCmp x y).swap := (cmp_swap x y).symm

/-- The head of two lists decides, unless it is the same. -/
theorem linCmp_cons (a b : β) (as bs : List β) :
    linCmp (a :: as) (b :: bs) = (linCmp a b).then (linCmp as bs) := by
  rcases lt_trichotomy a b with h | rfl | h
  · rw [linCmp_eq_lt_iff.mpr h, linCmp_eq_lt_iff.mpr (List.cons_lt_cons_iff.mpr (Or.inl h))]
    rfl
  · rw [linCmp_self, Ordering.then]
    rcases lt_trichotomy as bs with h | rfl | h
    · rw [linCmp_eq_lt_iff.mpr h,
        linCmp_eq_lt_iff.mpr (List.cons_lt_cons_iff.mpr (Or.inr ⟨rfl, h⟩))]
    · rw [linCmp_self, linCmp_self]
    · rw [linCmp_eq_gt_iff.mpr h,
        linCmp_eq_gt_iff.mpr (List.cons_lt_cons_iff.mpr (Or.inr ⟨rfl, h⟩))]
  · rw [linCmp_eq_gt_iff.mpr h, linCmp_eq_gt_iff.mpr (List.cons_lt_cons_iff.mpr (Or.inl h))]
    rfl

end LinCmp

/-- `strcmp` compares by the order of the characters. -/
theorem strcmp_eq_linCmp (s1 s2 : Str) : strcmp s1 s2 = linCmp s1 s2 := by
  unfold strcmp
  rcases lt_trichotomy s1 s2 with h | rfl | h
  · rw [if_pos h, linCmp_eq_lt_iff.mpr h]
  · rw [if_neg (lt_irrefl s1), if_pos rfl, linCmp_self]
  · rw [if_neg (not_lt_of_gt h), if_neg (ne_of_gt h), linCmp_eq_gt_iff.mpr h]

/-! ## Comparing from some place on -/

/-- The comparison of what is left of two paths. -/
def cmpFrom (xs ys : Str) : Ordering :=
  let rest := skipCommon xs ys
  if rest = ([], []) then .eq
  else
    match skipSeparators rest.1, skipSeparators rest.2 with
    | ['/'], [] => .eq
    | [], ['/'] => .eq
    | '/' :: _, [] => .gt
    | [], '/' :: _ => .lt
    | '/' :: _, _ :: _ => .lt
    | _ :: _, '/' :: _ => .gt
    | [], _ => .lt
    | _, [] => .gt
    | a :: _, b :: _ => if a < b then .lt else .gt

theorem gotPathCmp_eq_cmpFrom (p q : Str) :
    gotPathCmp p q = cmpFrom (p.dropWhile (· = '/')) (q.dropWhile (· = '/')) := rfl

theorem cmpFrom_cons (c : Char) (xs ys : Str) : cmpFrom (c :: xs) (c :: ys) = cmpFrom xs ys := by
  unfold cmpFrom
  rw [skipCommon, if_pos rfl]

theorem cmpFrom_append (as xs ys : Str) : cmpFrom (as ++ xs) (as ++ ys) = cmpFrom xs ys := by
  induction as with
  | nil => rfl
  | cons a as ih => rw [List.cons_append, List.cons_append, cmpFrom_cons, ih]

theorem skipSeparators_of_ne {c : Char} (h : c ≠ '/') (cs : Str) :
    skipSeparators (c :: cs) = c :: cs := by
  unfold skipSeparators
  split
  · next heq => exact absurd (List.cons.inj heq).1 h
  · rfl

/-- A separator in front of a name is not redundant. -/
theorem skipSeparators_slashed (names : List Name) :
    skipSeparators (slashed names) = slashed names := by
  cases names with
  | nil => rfl
  | cons n names =>
    obtain ⟨c, cs, h, hc⟩ := relPath_head n names
    rw [slashed_cons, h]
    unfold skipSeparators
    split
    · next heq => exact absurd (List.cons.inj (List.cons.inj heq).2).1 hc
    · rfl

/-- Where a path ends, or goes on below, and another has one more character of
a name, the one that ends comes first. -/
theorem cmpFrom_slashed_cons (ps : List Name) {c : Char} (hc : c ≠ '/') (cs : Str) :
    cmpFrom (slashed ps) (c :: cs) = .lt ∧ cmpFrom (c :: cs) (slashed ps) = .gt := by
  cases ps with
  | nil =>
    simp only [slashed, List.flatMap_nil, cmpFrom, skipCommon, skipSeparators_of_ne hc]
    constructor <;> split <;> simp_all [skipSeparators]
  | cons n names =>
    have hskip := skipSeparators_slashed (n :: names)
    rw [slashed_cons] at hskip ⊢
    have hne : ('/' : Char) ≠ c := Ne.symm hc
    simp only [cmpFrom, skipCommon, if_neg hne, if_neg hc, hskip, skipSeparators_of_ne hc]
    constructor <;> simp_all

/-- A path comes before all that is below it. -/
theorem cmpFrom_nil_slashed (n : Name) (names : List Name) :
    cmpFrom [] (slashed (n :: names)) = .lt ∧ cmpFrom (slashed (n :: names)) [] = .gt := by
  have hskip := skipSeparators_slashed (n :: names)
  obtain ⟨c, cs, h, -⟩ := relPath_head n names
  rw [slashed_cons, h] at hskip ⊢
  simp [cmpFrom, skipCommon, hskip, skipSeparators]

/-- Different characters of names decide. -/
theorem cmpFrom_of_ne {a b : Char} (ha : a ≠ '/') (hb : b ≠ '/') (hab : a ≠ b) (as bs : Str) :
    cmpFrom (a :: as) (b :: bs) = linCmp a b := by
  simp only [cmpFrom, skipCommon, if_neg hab, skipSeparators_of_ne ha, skipSeparators_of_ne hb]
  rcases lt_or_gt_of_ne hab with h | h
  · rw [linCmp_eq_lt_iff.mpr h]
    simp_all
  · rw [linCmp_eq_gt_iff.mpr h]
    simp_all [not_lt_of_gt h]

/-! ## The order is lexicographic -/

/-- **Names decide like strings**, whatever follows them. -/
theorem cmpFrom_names {as bs : Str} (ha : '/' ∉ as) (hb : '/' ∉ bs) (hab : as ≠ bs)
    (ps qs : List Name) : cmpFrom (as ++ slashed ps) (bs ++ slashed qs) = linCmp as bs := by
  induction as generalizing bs with
  | nil =>
    obtain ⟨b, bs, rfl⟩ := List.exists_cons_of_ne_nil (Ne.symm hab)
    have hb' : b ≠ '/' := fun h => hb (h ▸ List.mem_cons_self)
    rw [linCmp_eq_lt_iff.mpr (List.nil_lt_cons b bs)]
    exact (cmpFrom_slashed_cons ps hb' _).1
  | cons a as ih =>
    have ha' : a ≠ '/' := fun h => ha (h ▸ List.mem_cons_self)
    cases bs with
    | nil =>
      rw [linCmp_eq_gt_iff.mpr (List.nil_lt_cons a as)]
      exact (cmpFrom_slashed_cons qs ha' _).2
    | cons b bs =>
      have hb' : b ≠ '/' := fun h => hb (h ▸ List.mem_cons_self)
      rw [linCmp_cons]
      by_cases h : a = b
      · subst h
        rw [linCmp_self, List.cons_append, List.cons_append, cmpFrom_cons,
          ih (fun h => ha (List.mem_cons_of_mem _ h)) (fun h => hb (List.mem_cons_of_mem _ h))
            (fun h => hab (congrArg (a :: ·) h))]
        rfl
      · rw [List.cons_append, List.cons_append, cmpFrom_of_ne ha' hb' h]
        rcases lt_or_gt_of_ne h with h | h
        · rw [linCmp_eq_lt_iff.mpr h]
          rfl
        · rw [linCmp_eq_gt_iff.mpr h]
          rfl

/-- **The comparison of relative paths is the order of their names.** -/
theorem cmpFrom_relPath (p q : List Name) : cmpFrom (relPath p) (relPath q) = linCmp p q := by
  induction p generalizing q with
  | nil =>
    cases q with
    | nil => rfl
    | cons m q =>
      obtain ⟨c, cs, h, hc⟩ := relPath_head m q
      rw [linCmp_eq_lt_iff.mpr (List.nil_lt_cons m q), h]
      exact (cmpFrom_slashed_cons [] hc cs).1
  | cons n p ih =>
    cases q with
    | nil =>
      obtain ⟨c, cs, h, hc⟩ := relPath_head n p
      rw [linCmp_eq_gt_iff.mpr (List.nil_lt_cons n p), h]
      exact (cmpFrom_slashed_cons [] hc cs).2
    | cons m q =>
      rw [linCmp_cons, relPath, relPath]
      by_cases h : n = m
      · subst h
        rw [cmpFrom_append, linCmp_self, Ordering.then]
        -- behind equal names the paths go on, or end
        cases p with
        | nil =>
          cases q with
          | nil => rfl
          | cons m' q =>
            rw [linCmp_eq_lt_iff.mpr (List.nil_lt_cons m' q)]
            exact (cmpFrom_nil_slashed m' q).1
        | cons n' p =>
          cases q with
          | nil =>
            rw [linCmp_eq_gt_iff.mpr (List.nil_lt_cons n' p)]
            exact (cmpFrom_nil_slashed n' p).2
          | cons m' q => rw [slashed_cons, slashed_cons, cmpFrom_cons, ih]
      · rw [cmpFrom_names n.2.2 m.2.2 (fun heq => h (Subtype.ext heq))]
        show linCmp n m = _
        rcases lt_or_gt_of_ne h with h | h
        · rw [linCmp_eq_lt_iff.mpr h]
          rfl
        · rw [linCmp_eq_gt_iff.mpr h]
          rfl

/-- **A canonical path**: names with one separator between each two of them,
and one in front if the path is absolute. -/
def canonicalPath (absolute : Bool) (names : List Name) : Str :=
  if absolute then absPath names else relPath names

/-- Without its leading slashes a canonical path is the relative one. -/
theorem dropWhile_canonicalPath (absolute : Bool) (names : List Name) :
    (canonicalPath absolute names).dropWhile (· = '/') = relPath names := by
  cases absolute with
  | false => exact dropWhile_relPath names
  | true =>
    cases names with
    | nil => rfl
    | cons n names =>
      show (absPath (n :: names)).dropWhile _ = _
      rw [absPath_of_ne_nil (List.cons_ne_nil n names), slashed_cons,
        List.dropWhile_cons_of_pos (by simp), dropWhile_relPath]

/-- **Paths are compared like their lists of names.** -/
theorem gotPathCmp_canonicalPath (a b : Bool) (p q : List Name) :
    gotPathCmp (canonicalPath a p) (canonicalPath b q) = linCmp p q := by
  rw [gotPathCmp_eq_cmpFrom, dropWhile_canonicalPath, dropWhile_canonicalPath, cmpFrom_relPath]

/-- Names by themselves are compared like strings. -/
theorem gotPathCmp_name (a b : Name) : gotPathCmp a.val b.val = linCmp a b := by
  have h : ∀ n : Name, n.val = canonicalPath false [n] := fun n => (List.append_nil n.val).symm
  rw [h a, h b, gotPathCmp_canonicalPath, linCmp_cons, linCmp_self, Ordering.then_eq]

/-! ## Path lists -/

section Insert

variable {α β : Type} [LinearOrder β] {path : α → Str} {key : α → β}

/-- **Distinct keys in order.** -/
def InOrderOf (key : α → β) (list : List α) : Prop :=
  list.Pairwise (fun x y => key x < key y)

theorem InOrderOf.nodup {list : List α} (h : InOrderOf key list) : (list.map key).Nodup := by
  rw [List.Nodup, List.pairwise_map]
  exact h.imp (fun hlt heq => absurd (heq ▸ hlt) (lt_irrefl _))

variable (hcmp : ∀ x y, gotPathCmp (path x) (path y) = linCmp (key x) (key y))

include hcmp

/-- Inserting into the list keeps it sorted and adds nothing else. -/
theorem pathlistInsertRev_spec {rev rev' : List α} {a : α}
    (hs : rev.Pairwise (fun x y => key y < key x)) (h : pathlistInsertRev path a rev = some rev') :
    rev'.Pairwise (fun x y => key y < key x) ∧ rev'.Perm (a :: rev) := by
  induction rev generalizing rev' with
  | nil =>
    obtain rfl := Option.some.inj h
    exact ⟨List.pairwise_singleton _ a, List.Perm.refl _⟩
  | cons pe rev ih =>
    obtain ⟨hpe, hrev⟩ := List.pairwise_cons.mp hs
    rw [pathlistInsertRev, hcmp] at h
    split at h
    · exact nomatch h
    · next hlt =>
      obtain rfl := Option.some.inj h
      have hlt := linCmp_eq_lt_iff.mp hlt
      refine ⟨List.pairwise_cons.mpr ⟨fun y hy => ?_, hs⟩, List.Perm.refl _⟩
      rcases List.mem_cons.mp hy with rfl | hy
      · exact hlt
      · exact lt_trans (hpe y hy) hlt
    · next hgt =>
      have hgt := linCmp_eq_gt_iff.mp hgt
      obtain ⟨rev₁, hins, rfl⟩ := Option.map_eq_some_iff.mp h
      obtain ⟨hsorted, hperm⟩ := ih hrev hins
      refine ⟨List.pairwise_cons.mpr ⟨fun y hy => ?_, hsorted⟩,
        (hperm.cons pe).trans (List.Perm.swap a pe rev)⟩
      rcases List.mem_cons.mp (hperm.mem_iff.mp hy) with rfl | hy
      · exact hgt
      · exact hpe y hy

/-- **What insertion does** to a list of distinct keys in order: it keeps them
so, and only adds. -/
theorem gotPathlistInsert_spec {list list' : List α} {a : α} (hs : InOrderOf key list)
    (h : gotPathlistInsert path list a = some list') :
    InOrderOf key list' ∧ list'.Perm (a :: list) := by
  obtain ⟨rev', hins, rfl⟩ := Option.map_eq_some_iff.mp h
  obtain ⟨hsorted, hperm⟩ := pathlistInsertRev_spec hcmp (List.pairwise_reverse.mpr hs) hins
  exact ⟨List.pairwise_reverse.mpr hsorted,
    (List.reverse_perm rev').trans (hperm.trans ((List.reverse_perm list).cons a))⟩

/-- The insertion is refused only for a path that is in the list already. -/
theorem pathlistInsertRev_eq_none {rev : List α} {a : α} (h : pathlistInsertRev path a rev = none) :
    ∃ pe ∈ rev, key pe = key a := by
  induction rev with
  | nil => exact nomatch h
  | cons pe rev ih =>
    rw [pathlistInsertRev, hcmp] at h
    split at h
    · next heq => exact ⟨pe, List.mem_cons_self, linCmp_eq_eq_iff.mp heq⟩
    · exact nomatch h
    · obtain ⟨pe', hpe', heq⟩ := ih (Option.map_eq_none_iff.mp h)
      exact ⟨pe', List.mem_cons_of_mem _ hpe', heq⟩

/-- Insertion fails only if the key is there. -/
theorem gotPathlistInsert_eq_none {list : List α} {a : α}
    (h : gotPathlistInsert path list a = none) : ∃ pe ∈ list, key pe = key a := by
  obtain ⟨pe, hpe, heq⟩ := pathlistInsertRev_eq_none hcmp (Option.map_eq_none_iff.mp h)
  exact ⟨pe, List.mem_reverse.mp hpe, heq⟩

/-- **What any number of insertions do**: a duplicate is not inserted. -/
theorem foldl_insert_spec (inserted : List α) {list : List α} (hs : InOrderOf key list) :
    InOrderOf key (inserted.foldl (fun l a => (gotPathlistInsert path l a).getD l) list)
      ∧ ∀ k, k ∈ (inserted.foldl (fun l a => (gotPathlistInsert path l a).getD l) list).map key
        ↔ k ∈ list.map key ∨ k ∈ inserted.map key := by
  induction inserted generalizing list with
  | nil => simpa using hs
  | cons a inserted ih =>
    rw [List.foldl_cons]
    cases hins : gotPathlistInsert path list a with
    | none =>
      obtain ⟨pe, hpe, heq⟩ := gotPathlistInsert_eq_none hcmp hins
      rw [Option.getD_none]
      obtain ⟨hsorted, hmem⟩ := ih hs
      refine ⟨hsorted, fun k => ?_⟩
      rw [hmem, List.map_cons, List.mem_cons]
      have hdup : k = key a → k ∈ list.map key := by
        rintro rfl
        exact List.mem_map.mpr ⟨pe, hpe, heq⟩
      tauto
    | some list' =>
      obtain ⟨hs', hperm⟩ := gotPathlistInsert_spec hcmp hs hins
      rw [Option.getD_some]
      obtain ⟨hsorted, hmem⟩ := ih hs'
      refine ⟨hsorted, fun k => ?_⟩
      rw [hmem, (hperm.map key).mem_iff, List.map_cons, List.map_cons, List.mem_cons, List.mem_cons]
      tauto

end Insert

/-- Lists that are ordered by a name of each element. -/
theorem gotPathlistInsert_name {α : Type} {name : α → Name} {list list' : List α} {a : α}
    (hs : InOrderOf name list) (h : gotPathlistInsert (fun x => (name x).val) list a = some list') :
    InOrderOf name list' ∧ list'.Perm (a :: list) :=
  gotPathlistInsert_spec (fun x y => gotPathCmp_name (name x) (name y)) hs h

theorem exists_of_insert_name_eq_none {α : Type} {name : α → Name} {list : List α} {a : α}
    (h : gotPathlistInsert (fun x => (name x).val) list a = none) : ∃ pe ∈ list, name pe = name a :=
  gotPathlistInsert_eq_none (fun x y => gotPathCmp_name (name x) (name y)) h

/-! ## The laws of the order -/

/-- What is below a path comes after it. -/
theorem lt_append_of_ne_nil {α : Type} [LinearOrder α] (p : List α) {s : List α} (hs : s ≠ []) :
    p < p ++ s := by
  induction p with
  | nil =>
    obtain ⟨a, s, rfl⟩ := List.exists_cons_of_ne_nil hs
    exact List.nil_lt_cons a s
  | cons a p ih => exact List.cons_lt_cons_iff.mpr (Or.inr ⟨rfl, ih⟩)

/-- **What comes between a list and a list it is a beginning of** has the same
beginning. -/
theorem eq_append_of_between {α : Type} [LinearOrder α] {p q s : List α} (hpq : p < q)
    (hqs : q < p ++ s) : ∃ t, t ≠ [] ∧ q = p ++ t := by
  induction p generalizing q with
  | nil => exact ⟨q, fun h => absurd (h ▸ hpq) (List.lt_irrefl []), rfl⟩
  | cons a p ih =>
    cases q with
    | nil => exact absurd hpq (List.not_lt_nil _)
    | cons b q =>
      rw [List.cons_append] at hqs
      rcases List.cons_lt_cons_iff.mp hpq with hab | ⟨rfl, hpq'⟩
      · rcases List.cons_lt_cons_iff.mp hqs with hba | ⟨rfl, -⟩
        · exact absurd hab (not_lt_of_gt hba)
        · exact absurd hab (lt_irrefl _)
      · rcases List.cons_lt_cons_iff.mp hqs with h | ⟨-, hqs'⟩
        · exact absurd h (lt_irrefl _)
        · obtain ⟨t, ht, rfl⟩ := ih hpq' hqs'
          exact ⟨t, ht, rfl⟩

/-- A name that another one begins with comes before it. -/
theorem lt_of_prefix_ne {as bs : Str} (h : as <+: bs) (hne : as ≠ bs) : as < bs := by
  obtain ⟨cs, rfl⟩ := h
  exact lt_append_of_ne_nil as (fun hc => hne (by rw [hc, List.append_nil]))

/-- **A mere prefix**: the last name of the one path is only a beginning of a
name of the other. -/
theorem append_lt_of_prefix {p q : List Name} (h : relPath p <+: relPath q) (hpq : ¬p <+: q)
    (s : List Name) : p ++ s < q := by
  induction p generalizing q with
  | nil => exact absurd List.nil_prefix hpq
  | cons n p ih =>
    cases q with
    | nil =>
      obtain ⟨c, cs, hr, -⟩ := relPath_head n p
      rw [hr] at h
      exact absurd (List.prefix_nil.mp h) (List.cons_ne_nil c cs)
    | cons m q =>
      rw [relPath, relPath] at h
      rw [List.cons_append]
      by_cases hnm : n = m
      · subst hnm
        refine List.cons_lt_cons_iff.mpr (Or.inr ⟨rfl, ih ?_ (fun hp => hpq ?_)⟩)
        · have h := (List.prefix_append_right_inj n.val).mp h
          cases p with
          | nil => exact List.nil_prefix
          | cons n' p =>
            cases q with
            | nil => exact absurd (List.prefix_nil.mp h) (List.cons_ne_nil _ _)
            | cons m' q =>
              rw [slashed_cons, slashed_cons] at h
              exact (List.cons_prefix_cons.mp h).2
        · exact List.cons_prefix_cons.mpr ⟨rfl, hp⟩
      · refine List.cons_lt_cons_iff.mpr (Or.inl ?_)
        have hval : n.val ≠ m.val := fun heq => hnm (Subtype.ext heq)
        have hn : n.val <+: m.val ++ slashed q := (List.prefix_append _ _).trans h
        rcases List.prefix_or_prefix_of_prefix hn (List.prefix_append m.val (slashed q))
          with hp | hp
        · exact lt_of_prefix_ne hp hval
        · -- the longer name would have a separator in it
          obtain ⟨cs, hcs⟩ := hp
          obtain ⟨c, cs, rfl⟩ := List.exists_cons_of_ne_nil
            (fun hnil : cs = [] => hval (by rw [← hcs, hnil, List.append_nil]))
          rw [← hcs, List.append_assoc] at h
          have h := (List.prefix_append_right_inj m.val).mp h
          rcases slashed_shape q with hq | ⟨r, hq⟩
          · rw [hq] at h
            exact absurd (List.prefix_nil.mp h) (List.cons_ne_nil _ _)
          · rw [hq] at h
            obtain ⟨rfl, -⟩ := List.cons_prefix_cons.mp h
            exact absurd (hcs ▸ List.mem_append_right _ List.mem_cons_self) n.2.2

/-- A path list made by insertions. -/
def pathlistOf {δ : Type} (path : List Name → Str) (inserted : List (List Name × δ)) :
    List (List Name × δ) :=
  inserted.foldl (fun list a => (gotPathlistInsert (fun a => path a.1) list a).getD list) []

/-- A path list has each path that was inserted once, in order. -/
theorem pathlistOf_spec {path : List Name → Str}
    (hcmp : ∀ p q, gotPathCmp (path p) (path q) = linCmp p q) {δ : Type}
    (inserted : List (List Name × δ)) : InOrderOf Prod.fst (pathlistOf path inserted)
      ∧ ∀ p, p ∈ (pathlistOf path inserted).map Prod.fst ↔ p ∈ inserted.map Prod.fst := by
  have hcmp : ∀ a b : List Name × δ, gotPathCmp (path a.1) (path b.1) = linCmp a.1 b.1 :=
    fun a b => hcmp a.1 b.1
  obtain ⟨hsorted, hmem⟩ := foldl_insert_spec hcmp inserted List.Pairwise.nil
  exact ⟨hsorted, fun p => (hmem p).trans (by simp)⟩

/-- **The order of canonical paths**, all of them absolute, or all relative. It
is a strict total order; what is below a path comes after it at once, and
before anything of which the path is a beginning as a string only; and a path
list is in that order, has no duplicates, and contains what was inserted. -/
structure PathOrder (path : List Name → Str) : Prop where
  eq_iff : ∀ p q, gotPathCmp (path p) (path q) = .eq ↔ path p = path q
  antisymm : ∀ p q, gotPathCmp (path q) (path p) = (gotPathCmp (path p) (path q)).swap
  trans : ∀ p q r, gotPathCmp (path p) (path q) = .lt → gotPathCmp (path q) (path r) = .lt →
    gotPathCmp (path p) (path r) = .lt
  below : ∀ p s, s ≠ [] → gotPathCmp (path p) (path (p ++ s)) = .lt
  block : ∀ p s q, gotPathCmp (path p) (path q) = .lt →
    gotPathCmp (path q) (path (p ++ s)) = .lt → ∃ t, t ≠ [] ∧ q = p ++ t
  beforePrefixed : ∀ p s q, path p <+: path q → ¬p <+: q →
    gotPathCmp (path (p ++ s)) (path q) = .lt
  sorted : ∀ {δ : Type} (inserted : List (List Name × δ)),
    (pathlistOf path inserted).Pairwise (fun a b => gotPathCmp (path a.1) (path b.1) = .lt)
  nodup : ∀ {δ : Type} (inserted : List (List Name × δ)),
    ((pathlistOf path inserted).map (fun a => path a.1)).Nodup
  mem_iff : ∀ {δ : Type} (inserted : List (List Name × δ)) (q : Str),
    q ∈ (pathlistOf path inserted).map (fun a => path a.1) ↔ q ∈ inserted.map (fun a => path a.1)

/-- **Canonical paths are in order**, be they all absolute or all relative: `got_path_cmp` compares
them as the lists of their names are compared, name by name (`gotPathCmp_canonicalPath`), and
everything else is said of such lists. -/
theorem pathOrder_canonicalPath (absolute : Bool) : PathOrder (canonicalPath absolute) := by
  have hcmp := gotPathCmp_canonicalPath absolute absolute
  have hinj : ∀ p q, canonicalPath absolute p = canonicalPath absolute q ↔ p = q := by
    refine fun p q => ⟨fun h => linCmp_eq_eq_iff.mp ?_, congrArg _⟩
    rw [← hcmp, h, hcmp, linCmp_self]
  have hlist := @pathlistOf_spec (canonicalPath absolute) hcmp
  have hmap : ∀ {δ : Type} (l : List (List Name × δ)), l.map (fun a => canonicalPath absolute a.1)
      = (l.map Prod.fst).map (canonicalPath absolute) := fun l => by simp
  refine ⟨fun p q => ?_, fun p q => ?_, fun p q r h h' => ?_, fun p s hs => ?_,
    fun p s q h h' => ?_, fun p s q h h' => ?_, fun inserted => ?_, fun inserted => ?_,
    fun inserted q => ?_⟩
  · rw [hcmp, linCmp_eq_eq_iff, hinj]
  · rw [hcmp, hcmp, linCmp_swap]
  · rw [hcmp, linCmp_eq_lt_iff] at h h' ⊢
    exact lt_trans h h'
  · rw [hcmp, linCmp_eq_lt_iff]
    exact lt_append_of_ne_nil p hs
  · rw [hcmp, linCmp_eq_lt_iff] at h h'
    exact eq_append_of_between h h'
  · rw [hcmp, linCmp_eq_lt_iff]
    refine append_lt_of_prefix ?_ h' s
    cases absolute with
    | false => exact h
    | true =>
      cases p with
      | nil => exact absurd List.nil_prefix h'
      | cons n p =>
        cases q with
        | nil =>
          obtain ⟨c, cs, hr, hc⟩ := relPath_head n p
          have h : absPath (n :: p) <+: absPath [] := h
          rw [absPath_of_ne_nil (List.cons_ne_nil n p), slashed_cons, hr, absPath_nil,
            List.cons_prefix_cons] at h
          exact absurd (List.prefix_nil.mp h.2) (List.cons_ne_nil c cs)
        | cons m q =>
          have h : absPath (n :: p) <+: absPath (m :: q) := h
          rw [absPath_of_ne_nil (List.cons_ne_nil n p), absPath_of_ne_nil (List.cons_ne_nil m q),
            slashed_cons, slashed_cons, List.cons_prefix_cons] at h
          exact h.2
  · refine (hlist inserted).1.imp (fun {a b} hlt => ?_)
    rw [hcmp, linCmp_eq_lt_iff]
    exact hlt
  · have hnodup := (hlist inserted).1.nodup
    rw [hmap]
    exact hnodup.map (fun p q h => (hinj p q).mp h)
  · have hmem := (hlist inserted).2
    rw [hmap, hmap, List.mem_map, List.mem_map]
    refine exists_congr (fun p => and_congr_left' ?_)
    rw [hmem]

end Got

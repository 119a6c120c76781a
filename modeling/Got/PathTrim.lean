import Mathlib.Data.List.DropRight
import Got.PathLen

/-!
# The order of all paths

Separators at the beginning and at the end of a path are no part of it for
`got_path_cmp`. What is left is compared by the ranks of the characters
(`gotPathCmp_eq`), whether or not it is made of names. So the comparison is that of
keys for any strings, and a path list keeps the first one that is inserted of those with
the same key (`mem_foldl_insert_iff`).
-/

namespace Got

/-- A path without separators at its end. -/
def trimEnd (p : Str) : Str := p.rdropWhile (· = '/')

/-- **A path without separators at its beginning and its end.** -/
def trimSlashes (p : Str) : Str := trimEnd (p.dropWhile (· = '/'))

/-- What a path is compared by. -/
def trimKey (p : Str) : List ℕ := (trimSlashes p).map rank

/-- Trimming the end of a string looks at its last characters only. -/
theorem trimEnd_cons (c : Char) (p : Str) :
    trimEnd (c :: p) = if c = '/' ∧ trimEnd p = [] then [] else c :: trimEnd p := by
  unfold trimEnd List.rdropWhile
  rw [List.reverse_cons, List.dropWhile_append]
  by_cases hp : p.reverse.dropWhile (· = '/') = []
  · rw [if_pos (List.isEmpty_iff.mpr hp), hp]
    by_cases hc : c = '/'
    · rw [List.dropWhile_cons_of_pos (by simpa using hc), if_pos ⟨hc, rfl⟩]
      rfl
    · rw [List.dropWhile_cons_of_neg (by simpa using hc), if_neg fun h => hc h.1]
      rfl
  · rw [if_neg fun h => hp (List.isEmpty_iff.mp h),
      if_neg fun h => hp (List.reverse_eq_nil_iff.mp h.2), List.reverse_append]
    rfl

theorem trimEnd_cons_of_ne {c : Char} (hc : c ≠ '/') (p : Str) :
    trimEnd (c :: p) = c :: trimEnd p := by
  rw [trimEnd_cons, if_neg fun h => hc h.1]

theorem trimEnd_slash_eq_nil_iff {p : Str} : trimEnd ('/' :: p) = [] ↔ trimEnd p = [] := by
  rw [trimEnd_cons]
  split
  · next h => exact iff_of_true rfl h.2
  · next h => exact iff_of_false (List.cons_ne_nil _ _) fun hp => h ⟨rfl, hp⟩

/-- **What is left of separators** in front of a path: one of them, and nothing behind
it if there were only separators. -/
theorem skipSeparators_slash (p : Str) :
    ∃ rest, skipSeparators ('/' :: p) = '/' :: rest ∧ (rest = [] ↔ trimEnd ('/' :: p) = []) := by
  induction p with
  | nil => exact ⟨[], rfl, iff_of_true rfl rfl⟩
  | cons c p ih =>
    by_cases hc : c = '/'
    · subst hc
      obtain ⟨rest, hrest, hiff⟩ := ih
      exact ⟨rest, hrest, hiff.trans trimEnd_slash_eq_nil_iff.symm⟩
    · refine ⟨c :: p, ?_, iff_of_false (List.cons_ne_nil c p) fun h => ?_⟩
      · unfold skipSeparators
        split
        · next heq => exact absurd (List.cons.inj (List.cons.inj heq).2).1 hc
        · rfl
      · rw [trimEnd_slash_eq_nil_iff, trimEnd_cons_of_ne hc] at h
        cases h

/-- Separators where the other path ends do not count. -/
theorem cmpFrom_nil_slash (q : Str) :
    cmpFrom [] ('/' :: q) = (if trimEnd ('/' :: q) = [] then .eq else .lt)
      ∧ cmpFrom ('/' :: q) [] = (if trimEnd ('/' :: q) = [] then .eq else .gt) := by
  obtain ⟨rest, hskip, hiff⟩ := skipSeparators_slash q
  simp only [cmpFrom, skipCommon, hskip]
  cases rest with
  | nil => simp [hiff.mp rfl, skipSeparators]
  | cons c rest =>
    have hne : trimEnd ('/' :: q) ≠ [] := fun h => by cases hiff.mpr h
    simp [hne, skipSeparators]

/-- **Where two paths go apart**, a separator comes first. -/
theorem cmpFrom_slash_cons {c : Char} (hc : c ≠ '/') (p q : Str) :
    cmpFrom ('/' :: p) (c :: q) = .lt ∧ cmpFrom (c :: q) ('/' :: p) = .gt := by
  obtain ⟨rest, hskip, -⟩ := skipSeparators_slash p
  simp only [cmpFrom, skipCommon, if_neg hc, if_neg (Ne.symm hc), hskip, skipSeparators_of_ne hc]
  cases rest <;> simp_all

theorem rank_lt_of_ne {c : Char} (hc : c ≠ '/') : rank '/' < rank c := by
  rw [rank_slash, rank_pos hc]
  exact Nat.succ_pos _

/-- What is behind a common beginning decides, also if it is only separators. -/
theorem linCmp_trimEnd_cons (c : Char) (p q : Str) :
    linCmp ((trimEnd (c :: p)).map rank) ((trimEnd (c :: q)).map rank)
      = linCmp ((trimEnd p).map rank) ((trimEnd q).map rank) := by
  rw [trimEnd_cons, trimEnd_cons]
  by_cases hp : c = '/' ∧ trimEnd p = []
  · rw [if_pos hp, hp.2]
    by_cases hq : trimEnd q = []
    · rw [if_pos ⟨hp.1, hq⟩, hq]
    · obtain ⟨d, rest, hd⟩ := List.exists_cons_of_ne_nil hq
      rw [if_neg fun h => hq h.2, hd, List.map_nil, List.map_cons, List.map_cons,
        linCmp_eq_lt_iff.mpr (List.nil_lt_cons _ _), linCmp_eq_lt_iff.mpr (List.nil_lt_cons _ _)]
  · rw [if_neg hp]
    by_cases hq : c = '/' ∧ trimEnd q = []
    · obtain ⟨d, rest, hd⟩ := List.exists_cons_of_ne_nil fun h => hp ⟨hq.1, h⟩
      rw [if_pos hq, hq.2, hd, List.map_nil, List.map_cons, List.map_cons,
        linCmp_eq_gt_iff.mpr (List.nil_lt_cons _ _), linCmp_eq_gt_iff.mpr (List.nil_lt_cons _ _)]
    · rw [if_neg hq, List.map_cons, List.map_cons, linCmp_cons, linCmp_self]
      rfl

/-- A path that has ended, and one that goes on. -/
theorem cmpFrom_nil_cons (c : Char) (q : Str) :
    cmpFrom [] (c :: q) = linCmp [] ((trimEnd (c :: q)).map rank)
      ∧ cmpFrom (c :: q) [] = linCmp ((trimEnd (c :: q)).map rank) [] := by
  by_cases hc : c = '/'
  · subst hc
    obtain ⟨hlt, hgt⟩ := cmpFrom_nil_slash q
    rw [hlt, hgt]
    by_cases hq : trimEnd ('/' :: q) = []
    · rw [if_pos hq, if_pos hq, hq]
      exact ⟨rfl, rfl⟩
    · obtain ⟨d, rest, hd⟩ := List.exists_cons_of_ne_nil hq
      rw [if_neg hq, if_neg hq, hd, List.map_cons]
      exact ⟨(linCmp_eq_lt_iff.mpr (List.nil_lt_cons _ _)).symm,
        (linCmp_eq_gt_iff.mpr (List.nil_lt_cons _ _)).symm⟩
  · obtain ⟨hlt, hgt⟩ := cmpFrom_slashed_cons [] hc q
    rw [trimEnd_cons_of_ne hc, List.map_cons, linCmp_eq_lt_iff.mpr (List.nil_lt_cons _ _),
      linCmp_eq_gt_iff.mpr (List.nil_lt_cons _ _)]
    exact ⟨hlt, hgt⟩

/-- A separator, and another character. -/
theorem linCmp_trimEnd_slash {c : Char} (hc : c ≠ '/') (p q : Str) :
    (trimEnd ('/' :: p)).map rank < (trimEnd (c :: q)).map rank := by
  rw [trimEnd_cons_of_ne hc, trimEnd_cons, List.map_cons]
  split
  · exact List.nil_lt_cons _ _
  · rw [List.map_cons]
    exact List.cons_lt_cons_iff.mpr (Or.inl (rank_lt_of_ne hc))

/-- **What is left of two paths** is compared by ranks. -/
theorem cmpFrom_eq (p q : Str) :
    cmpFrom p q = linCmp ((trimEnd p).map rank) ((trimEnd q).map rank) := by
  induction p generalizing q with
  | nil =>
    cases q with
    | nil => rfl
    | cons c q => exact (cmpFrom_nil_cons c q).1
  | cons a p ih =>
    cases q with
    | nil => exact (cmpFrom_nil_cons a p).2
    | cons b q =>
      by_cases hab : a = b
      · subst hab
        rw [cmpFrom_cons, ih, linCmp_trimEnd_cons]
      by_cases ha : a = '/'
      · subst ha
        rw [(cmpFrom_slash_cons (Ne.symm hab) p q).1,
          linCmp_eq_lt_iff.mpr (linCmp_trimEnd_slash (Ne.symm hab) p q)]
      by_cases hb : b = '/'
      · subst hb
        rw [(cmpFrom_slash_cons hab q p).2, linCmp_eq_gt_iff.mpr (linCmp_trimEnd_slash hab q p)]
      · rw [cmpFrom_of_ne ha hb hab, trimEnd_cons_of_ne ha, trimEnd_cons_of_ne hb, List.map_cons,
          List.map_cons, linCmp_cons]
        obtain h | h := lt_or_gt_of_ne hab
        · rw [linCmp_eq_lt_iff.mpr h, linCmp_eq_lt_iff.mpr ((lt_iff_rank_lt ha hb).mp h)]
          rfl
        · rw [linCmp_eq_gt_iff.mpr h, linCmp_eq_gt_iff.mpr ((lt_iff_rank_lt hb ha).mp h)]
          rfl

/-- **Paths are compared by their keys.** -/
theorem gotPathCmp_eq (p q : Str) : gotPathCmp p q = linCmp (trimKey p) (trimKey q) := by
  rw [gotPathCmp_eq_cmpFrom, cmpFrom_eq]
  rfl

/-- Paths of names have keys of their own. -/
theorem trimKey_relPath_inj {p q : List Name} :
    trimKey (relPath p) = trimKey (relPath q) ↔ p = q := by
  have h := gotPathCmp_canonicalPath false false p q
  show _ ↔ _
  rw [← linCmp_eq_eq_iff, ← gotPathCmp_eq, ← @linCmp_eq_eq_iff _ _ p q, ← h]
  rfl

/-! ## The first of its key -/

section First

variable {α β : Type} {key : α → β} {l : List α} {x a : α}

/-- **The first element with its key.** -/
def FirstOf (key : α → β) (l : List α) (x : α) : Prop :=
  ∃ before after, l = before ++ x :: after ∧ ∀ y ∈ before, key y ≠ key x

theorem FirstOf.mem (h : FirstOf key l x) : x ∈ l := by
  obtain ⟨before, after, rfl, -⟩ := h
  exact List.mem_append_right before List.mem_cons_self

/-- One more element is the first if there is none with its key before. -/
theorem firstOf_concat : FirstOf key (l ++ [a]) x
    ↔ FirstOf key l x ∨ (x = a ∧ ∀ y ∈ l, key y ≠ key a) := by
  constructor
  · rintro ⟨before, after, heq, hbefore⟩
    rcases List.eq_nil_or_concat after with rfl | ⟨after, b, rfl⟩
    · obtain ⟨rfl, hax⟩ := List.append_inj' heq rfl
      obtain rfl := List.cons.inj hax |>.1
      exact Or.inr ⟨rfl, hbefore⟩
    · rw [List.concat_eq_append, ← List.cons_append, ← List.append_assoc] at heq
      obtain ⟨rfl, -⟩ := List.append_inj' heq rfl
      exact Or.inl ⟨before, after, rfl, hbefore⟩
  · rintro (⟨before, after, rfl, hbefore⟩ | ⟨rfl, hbefore⟩)
    · exact ⟨before, after ++ [a], by rw [List.append_assoc, List.cons_append], hbefore⟩
    · exact ⟨l, [], rfl, hbefore⟩

/-- There is a first element with each key. -/
theorem exists_firstOf {y : α} (h : y ∈ l) : ∃ x, FirstOf key l x ∧ key x = key y := by
  induction l using List.reverseRecOn generalizing y with
  | nil => exact absurd h List.not_mem_nil
  | append_singleton l a ih =>
    rcases List.mem_append.mp h with hy | hy
    · obtain ⟨x, hx, hxy⟩ := ih hy
      exact ⟨x, firstOf_concat.mpr (Or.inl hx), hxy⟩
    · obtain rfl := List.mem_singleton.mp hy
      by_cases hno : ∀ z ∈ l, key z ≠ key y
      · exact ⟨y, firstOf_concat.mpr (Or.inr ⟨rfl, hno⟩), rfl⟩
      · obtain ⟨z, hz⟩ := not_forall.mp hno
        obtain ⟨hz, heq⟩ := not_forall.mp hz
        obtain ⟨x, hx, hxz⟩ := ih hz
        exact ⟨x, firstOf_concat.mpr (Or.inl hx), hxz.trans (not_not.mp heq)⟩

/-- The first element with a key is the one which is found. -/
theorem firstOf_iff_find? [DecidableEq β] : FirstOf key l x ↔ l.find? (key · = key x) = some x := by
  rw [List.find?_eq_some_iff_append, and_iff_right (decide_eq_true rfl)]
  refine exists_congr fun before => exists_congr fun after => and_congr_right fun _ => ?_
  exact forall₂_congr fun y _ => by rw [Bool.not_eq_true', decide_eq_false_iff_not]

/-- What is before the first element with a key, wherever the element is found first. -/
theorem FirstOf.forall_before {before after : List α} (h : FirstOf key l x)
    (hl : l = before ++ x :: after) (hx : x ∉ before) : ∀ y ∈ before, key y ≠ key x := by
  obtain ⟨before', after', hl', hbefore'⟩ := h
  rcases List.append_eq_append_iff.mp (hl.symm.trans hl') with ⟨t, rfl, -⟩ | ⟨t, rfl, hcons⟩
  · exact fun y hy => hbefore' y (List.mem_append_left t hy)
  · cases t with
    | nil =>
      rw [List.append_nil]
      exact hbefore'
    | cons z t =>
      rw [(List.cons.inj hcons).1] at hx
      exact absurd (List.mem_append_right _ List.mem_cons_self) hx

/-- If what is first of its one key is first of its other one, then only what comes behind its other
key comes behind its one key. -/
theorem exists_before_of_firstOf {γ : Type} {key' : α → γ} {before after : List α}
    (h : FirstOf key' l x → FirstOf key l x) (hl : l = before ++ x :: after)
    (hy : ∃ y ∈ before, key y = key x) : ∃ y ∈ before, key' y = key' x := by
  by_contra hno
  have hfirst : ∀ y ∈ before, key' y ≠ key' x := fun y hy heq => hno ⟨y, hy, heq⟩
  obtain ⟨y, hy, heq⟩ := hy
  exact (h ⟨before, after, hl, hfirst⟩).forall_before hl (fun hx => hfirst x hx rfl) y hy heq

/-- **The first elements of two keys are the same** if what comes behind its one key is what comes
behind its other one. -/
theorem forall_firstOf_iff {γ : Type} {key' : α → γ} :
    (∀ x, FirstOf key l x ↔ FirstOf key' l x) ↔ ∀ before x after, l = before ++ x :: after →
      ((∃ y ∈ before, key y = key x) ↔ ∃ y ∈ before, key' y = key' x) := by
  constructor
  · exact fun h before x after hl =>
      ⟨exists_before_of_firstOf (h x).mpr hl, exists_before_of_firstOf (h x).mp hl⟩
  · intro h x
    refine exists_congr fun before => exists_congr fun after => and_congr_right fun hl => ?_
    have hiff := not_congr (h before x after hl)
    rw [not_exists, not_exists] at hiff
    simpa only [not_and] using hiff

/-- Elements of two lists. -/
theorem firstOf_append {l' : List α} : FirstOf key (l ++ l') x
    ↔ FirstOf key l x ∨ (FirstOf key l' x ∧ ∀ y ∈ l, key y ≠ key x) := by
  induction l' using List.reverseRecOn with
  | nil =>
    rw [List.append_nil]
    refine (or_iff_left ?_).symm
    rintro ⟨⟨before, after, h, -⟩, -⟩
    cases before <;> cases h
  | append_singleton l' a ih =>
    rw [← List.append_assoc, firstOf_concat, firstOf_concat, ih, or_and_right, or_assoc]
    refine or_congr Iff.rfl (or_congr Iff.rfl ?_)
    constructor
    · rintro ⟨rfl, h⟩
      exact ⟨⟨rfl, fun y hy => h y (List.mem_append_right l hy)⟩,
        fun y hy => h y (List.mem_append_left l' hy)⟩
    · rintro ⟨⟨rfl, h'⟩, h⟩
      exact ⟨rfl, fun y hy => (List.mem_append.mp hy).elim (h y) (h' y)⟩

/-- **Of lists whose elements have the key of the list**, the first elements are the
first of their keys. It does not matter how often a list is there. -/
theorem firstOf_flatMap {γ : Type} {f : γ → List α} {keyOf : γ → β}
    (hinj : Function.Injective keyOf) (hf : ∀ d, ∀ y ∈ f d, key y = keyOf d) {ds : List γ} :
    FirstOf key (ds.flatMap f) x ↔ ∃ d ∈ ds, (f d).head? = some x := by
  induction ds with
  | nil =>
    refine iff_of_false ?_ (by simp)
    rintro ⟨before, after, h, -⟩
    cases before <;> cases h
  | cons d ds ih =>
    have hone : FirstOf key (f d) x ↔ (f d).head? = some x := by
      cases hd : f d with
      | nil =>
        refine iff_of_false ?_ (by simp)
        rintro ⟨before, after, h, -⟩
        cases before <;> cases h
      | cons y rest =>
        rw [List.head?_cons, Option.some.injEq]
        constructor
        · rintro ⟨before, after, h, hbefore⟩
          cases before with
          | nil => exact (List.cons.inj h).1
          | cons b before =>
            -- there is none with another key before
            refine absurd ?_ (hbefore b List.mem_cons_self)
            have hx : x ∈ f d := hd.trans h ▸ List.mem_append_right _ List.mem_cons_self
            have hb : b ∈ f d := hd.trans h ▸ List.mem_append_left _ List.mem_cons_self
            rw [hf d b hb, hf d x hx]
        · rintro rfl
          exact ⟨[], rest, rfl, fun y hy => absurd hy List.not_mem_nil⟩
    rw [List.flatMap_cons, firstOf_append, hone, ih, List.exists_mem_cons_iff]
    constructor
    · rintro (h | ⟨h, -⟩)
      · exact Or.inl h
      · exact Or.inr h
    · rintro (h | ⟨e, he, hx⟩)
      · exact Or.inl h
      by_cases hd : f d = []
      · exact Or.inr ⟨⟨e, he, hx⟩, fun y hy => absurd hy (hd ▸ List.not_mem_nil)⟩
      by_cases hde : d = e
      · exact Or.inl (hde ▸ hx)
      · -- elements of other lists have other keys
        refine Or.inr ⟨⟨e, he, hx⟩, fun y hy heq => hde (hinj ?_)⟩
        rw [← hf d y hy, heq, hf e x (List.mem_of_mem_head? hx)]

variable [LinearOrder β] {path : α → Str}

/-- **What any number of insertions keep**: the first one of those with the same key. -/
theorem mem_foldl_insert_iff
    (hcmp : ∀ x y, gotPathCmp (path x) (path y) = linCmp (key x) (key y)) (inserted : List α) :
    x ∈ inserted.foldl (fun l a => (gotPathlistInsert path l a).getD l) []
      ↔ FirstOf key inserted x := by
  induction inserted using List.reverseRecOn generalizing x with
  | nil =>
    refine iff_of_false List.not_mem_nil ?_
    rintro ⟨before, after, h, -⟩
    cases before <;> cases h
  | append_singleton inserted a ih =>
    obtain ⟨hsorted, hkeys⟩ := foldl_insert_spec hcmp inserted (@List.Pairwise.nil _ _)
    have hkeys : ∀ k, k ∈ (inserted.foldl
        (fun l a => (gotPathlistInsert path l a).getD l) []).map key ↔ k ∈ inserted.map key :=
      fun k => (hkeys k).trans (or_iff_right List.not_mem_nil)
    rw [List.foldl_append, List.foldl_cons, List.foldl_nil, firstOf_concat, ← ih]
    generalize inserted.foldl (fun l a => (gotPathlistInsert path l a).getD l) [] = list
      at hsorted hkeys ⊢
    cases hins : gotPathlistInsert path list a with
    | none =>
      obtain ⟨pe, hpe, heq⟩ := gotPathlistInsert_eq_none hcmp hins
      rw [Option.getD_none]
      refine (or_iff_left ?_).symm
      rintro ⟨-, hnone⟩
      obtain ⟨y, hy, hyk⟩ := List.mem_map.mp ((hkeys _).mp (List.mem_map.mpr ⟨pe, hpe, heq⟩))
      exact hnone y hy hyk
    | some list' =>
      obtain ⟨hs', hperm⟩ := gotPathlistInsert_spec hcmp hsorted hins
      have hnew : ∀ y ∈ inserted, key y ≠ key a := by
        intro y hy heq
        have hnodup := (hperm.map key).nodup_iff.mp hs'.nodup
        rw [List.map_cons, List.nodup_cons] at hnodup
        exact hnodup.1 (heq ▸ (hkeys _).mpr (List.mem_map_of_mem hy))
      rw [Option.getD_some, hperm.mem_iff, List.mem_cons, or_comm]
      exact or_congr_right (and_iff_left hnew).symm

end First

end Got

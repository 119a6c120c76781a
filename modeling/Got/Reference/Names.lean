import Got.PathOrder
import Got.Reference.Open

/-!
# The order of names

References are listed in the order of their names, which is the order of paths. Separators in
front of a name or behind it do not count there. So the order is that of what is left of a
name without them (`gotPathCmp_eq_linCmp`), where a separator comes before everything else.
-/

namespace Got

/-- The place of a character in the order of paths. -/
def pathRank (c : Char) : ℕ := if c = '/' then 0 else c.toNat + 1

/-- What counts of a path from some place on. The separators behind it do not. -/
def cmpKeyFrom : Str → List ℕ
  | [] => []
  | c :: path => if c = '/' ∧ cmpKeyFrom path = [] then [] else pathRank c :: cmpKeyFrom path

/-- **What counts of a path** when paths are compared. -/
def cmpKey (path : Str) : List ℕ := cmpKeyFrom (path.dropWhile (· = '/'))

theorem cmpKeyFrom_of_ne {c : Char} (h : c ≠ '/') (path : Str) :
    cmpKeyFrom (c :: path) = (c.toNat + 1) :: cmpKeyFrom path := by
  rw [cmpKeyFrom, if_neg fun hc => h hc.1, pathRank, if_neg h]

/-- There is nothing that counts where there are only separators. -/
theorem cmpKeyFrom_eq_nil_iff (path : Str) :
    cmpKeyFrom path = [] ↔ path.dropWhile (· = '/') = [] := by
  induction path with
  | nil => exact ⟨fun _ => rfl, fun _ => rfl⟩
  | cons c path ih =>
    by_cases hc : c = '/'
    · rw [List.dropWhile_cons_of_pos (by simpa using hc), ← ih, cmpKeyFrom]
      by_cases hpath : cmpKeyFrom path = []
      · rw [if_pos ⟨hc, hpath⟩]
        exact ⟨fun _ => hpath, fun _ => rfl⟩
      · rw [if_neg fun h => hpath h.2]
        exact ⟨fun h => (nomatch h), fun h => absurd h hpath⟩
    · rw [List.dropWhile_cons_of_neg (by simpa using hc), cmpKeyFrom_of_ne hc]
      exact ⟨fun h => (nomatch h), fun h => (nomatch h)⟩

/-- Redundant separators are skipped. -/
theorem skipSeparators_sep (path : Str) :
    skipSeparators ('/' :: path) = '/' :: path.dropWhile (· = '/') := by
  induction path with
  | nil => rfl
  | cons c path ih =>
    by_cases hc : c = '/'
    · subst hc
      rw [skipSeparators, ih, List.dropWhile_cons_of_pos rfl]
    · rw [List.dropWhile_cons_of_neg (by simpa using hc)]
      unfold skipSeparators
      split
      · next heq => exact absurd (List.cons.inj (List.cons.inj heq).2).1 hc
      · rfl

theorem linCmp_nil_cons (n : ℕ) (ns : List ℕ) :
    linCmp [] (n :: ns) = .lt ∧ linCmp (n :: ns) [] = .gt :=
  ⟨linCmp_eq_lt_iff.mpr (List.nil_lt_cons n ns), linCmp_eq_gt_iff.mpr (List.nil_lt_cons n ns)⟩

/-- A path that ends comes before all that goes on, unless only separators follow. -/
theorem cmpFrom_nil (path : Str) :
    cmpFrom [] path = linCmp [] (cmpKeyFrom path) ∧
      cmpFrom path [] = linCmp (cmpKeyFrom path) [] := by
  cases path with
  | nil => exact ⟨rfl, rfl⟩
  | cons c path =>
    by_cases hc : c = '/'
    · subst hc
      cases hdrop : path.dropWhile (· = '/') with
      | nil =>
        have hkey : cmpKeyFrom ('/' :: path) = [] :=
          if_pos ⟨rfl, (cmpKeyFrom_eq_nil_iff path).mpr hdrop⟩
        rw [hkey, linCmp_self]
        simp [cmpFrom, skipCommon, skipSeparators_sep, hdrop, skipSeparators]
      | cons d rest =>
        have hne : cmpKeyFrom path ≠ [] := fun h => by
          rw [(cmpKeyFrom_eq_nil_iff path).mp h] at hdrop
          cases hdrop
        rw [cmpKeyFrom, if_neg fun h => hne h.2, (linCmp_nil_cons _ _).1, (linCmp_nil_cons _ _).2]
        simp [cmpFrom, skipCommon, skipSeparators_sep, hdrop, skipSeparators]
    · rw [cmpKeyFrom_of_ne hc, (linCmp_nil_cons _ _).1, (linCmp_nil_cons _ _).2]
      simp only [cmpFrom, skipCommon, skipSeparators_of_ne hc]
      constructor <;> simp_all [skipSeparators]

/-- A separator comes before everything else. -/
theorem cmpFrom_sep {c : Char} (hc : c ≠ '/') (path path' : Str) :
    cmpFrom ('/' :: path) (c :: path')
      = linCmp (cmpKeyFrom ('/' :: path)) (cmpKeyFrom (c :: path')) ∧
      cmpFrom (c :: path') ('/' :: path) =
        linCmp (cmpKeyFrom (c :: path')) (cmpKeyFrom ('/' :: path)) := by
  have hlt : cmpKeyFrom ('/' :: path) < cmpKeyFrom (c :: path') := by
    rw [cmpKeyFrom_of_ne hc, cmpKeyFrom]
    split
    · exact List.nil_lt_cons _ _
    · exact List.cons_lt_cons_iff.mpr (Or.inl (Nat.succ_pos _))
  rw [linCmp_eq_lt_iff.mpr hlt, linCmp_eq_gt_iff.mpr hlt]
  simp [cmpFrom, skipCommon, skipSeparators_sep, skipSeparators_of_ne hc, hc, Ne.symm hc]

/-- Names are compared as lists of keys. -/
theorem cmpFrom_eq_linCmp (xs ys : Str) :
    cmpFrom xs ys = linCmp (cmpKeyFrom xs) (cmpKeyFrom ys) := by
  induction xs generalizing ys with
  | nil => exact (cmpFrom_nil ys).1
  | cons a xs ih =>
    cases ys with
    | nil => exact (cmpFrom_nil (a :: xs)).2
    | cons b ys =>
      by_cases hab : a = b
      · subst hab
        rw [cmpFrom_cons, ih, cmpKeyFrom, cmpKeyFrom]
        by_cases ha : a = '/'
        · cases hxs : cmpKeyFrom xs <;> cases hys : cmpKeyFrom ys <;>
            simp [ha, linCmp_nil_cons, linCmp_self, linCmp_cons]
        · rw [if_neg fun h => ha h.1, if_neg fun h => ha h.1, linCmp_cons, linCmp_self]
          rfl
      · by_cases ha : a = '/'
        · subst ha
          exact (cmpFrom_sep (Ne.symm hab) xs ys).1
        · by_cases hb : b = '/'
          · subst hb
            exact (cmpFrom_sep ha ys xs).2
          · rw [cmpFrom_of_ne ha hb hab, cmpKeyFrom_of_ne ha, cmpKeyFrom_of_ne hb, linCmp_cons]
            rcases lt_or_gt_of_ne hab with h | h
            · have hlt : a.toNat + 1 < b.toNat + 1 := Nat.succ_lt_succ h
              rw [linCmp_eq_lt_iff.mpr h, linCmp_eq_lt_iff.mpr hlt]
              rfl
            · have hlt : b.toNat + 1 < a.toNat + 1 := Nat.succ_lt_succ h
              rw [linCmp_eq_gt_iff.mpr h, linCmp_eq_gt_iff.mpr hlt]
              rfl

/-- **Paths are compared by what counts of them.** -/
theorem gotPathCmp_eq_linCmp (p q : Str) : gotPathCmp p q = linCmp (cmpKey p) (cmpKey q) :=
  cmpFrom_eq_linCmp _ _

/-! ## Lists of references -/

namespace RefStore

/-- The name of a reference, as a path. -/
def namePath (name : Bytes) : Str := name.map fun c => Char.ofNat c.toNat

/-- **`insert_ref`**, in the order of `got_ref_cmp_by_name`. A duplicate is not inserted. -/
def insertRef (refs : List DiskRef) (ref : DiskRef) : List DiskRef :=
  (gotPathlistInsert (fun r => namePath r.name) refs ref).getD refs

/-- What counts of the name of a reference. -/
def refKey (ref : DiskRef) : List ℕ := cmpKey (namePath ref.name)

theorem gotPathCmp_namePath (x y : DiskRef) :
    gotPathCmp (namePath x.name) (namePath y.name) = linCmp (refKey x) (refKey y) :=
  gotPathCmp_eq_linCmp _ _

/-- Of references in order, one at most has a key. -/
theorem find?_eq_some_iff_mem {refs : List DiskRef} (h : InOrderOf refKey refs) {ref : DiskRef}
    {key : List ℕ} : refs.find? (refKey · = key) = some ref ↔ ref ∈ refs ∧ refKey ref = key := by
  refine ⟨fun hfind => ⟨List.mem_of_find?_eq_some hfind, by simpa using List.find?_some hfind⟩, ?_⟩
  rintro ⟨hmem, rfl⟩
  induction refs with
  | nil => exact absurd hmem List.not_mem_nil
  | cons r refs ih =>
    obtain ⟨hr, hrefs⟩ := List.pairwise_cons.mp h
    rcases List.mem_cons.mp hmem with rfl | hmem
    · rw [List.find?_cons_of_pos (by simp)]
    · have hne : refKey r ≠ refKey ref := ne_of_lt (hr ref hmem)
      rw [List.find?_cons_of_neg (by simpa using hne)]
      exact ih hrefs hmem

/-- **What is inserted is found**, unless there is something with its key. -/
theorem find?_insertRef {refs : List DiskRef} (h : InOrderOf refKey refs) (ref : DiskRef)
    (key : List ℕ) :
    InOrderOf refKey (insertRef refs ref) ∧ (insertRef refs ref).find? (refKey · = key) =
      (refs.find? (refKey · = key) <|> [ref].find? (refKey · = key)) := by
  unfold insertRef
  cases hins : gotPathlistInsert (fun r => namePath r.name) refs ref with
  | none =>
    obtain ⟨r, hr, heq⟩ := gotPathlistInsert_eq_none gotPathCmp_namePath hins
    refine ⟨h, ?_⟩
    by_cases hkey : refKey ref = key
    · rw [Option.getD_none, (find?_eq_some_iff_mem h).mpr ⟨hr, heq.trans hkey⟩]
      rfl
    · rw [List.find?_cons_of_neg (by simpa using hkey), List.find?_nil, Option.getD_none]
      cases refs.find? (refKey · = key) <;> rfl
  | some refs' =>
    obtain ⟨h', hperm⟩ := gotPathlistInsert_spec gotPathCmp_namePath h hins
    refine ⟨h', ?_⟩
    rw [Option.getD_some]
    have hnodup : (refKey ref :: refs.map refKey).Nodup :=
      (hperm.map refKey).nodup_iff.mp h'.nodup
    by_cases hkey : refKey ref = key
    · have hnone : refs.find? (refKey · = key) = none := List.find?_eq_none.mpr fun r hr hrkey =>
        (List.nodup_cons.mp hnodup).1
          (List.mem_map.mpr ⟨r, hr, (of_decide_eq_true hrkey).trans hkey.symm⟩)
      rw [hnone, List.find?_cons_of_pos (by simpa using hkey)]
      exact (find?_eq_some_iff_mem h').mpr ⟨hperm.mem_iff.mpr List.mem_cons_self, hkey⟩
    · rw [List.find?_cons_of_neg (by simpa using hkey), List.find?_nil]
      cases hfind : refs.find? (refKey · = key) with
      | some r =>
        obtain ⟨hr, hrkey⟩ := (find?_eq_some_iff_mem h).mp hfind
        exact (find?_eq_some_iff_mem h').mpr ⟨hperm.mem_iff.mpr (List.mem_cons_of_mem _ hr), hrkey⟩
      | none =>
        refine List.find?_eq_none.mpr fun r hr => ?_
        rcases List.mem_cons.mp (hperm.mem_iff.mp hr) with rfl | hr
        · simpa using hkey
        · exact List.find?_eq_none.mp hfind r hr

/-- Inserting does not make up references. -/
theorem mem_insertRef {refs : List DiskRef} (h : InOrderOf refKey refs) {ref r : DiskRef}
    (hr : r ∈ insertRef refs ref) : r = ref ∨ r ∈ refs := by
  unfold insertRef at hr
  cases hins : gotPathlistInsert (fun r => namePath r.name) refs ref with
  | none =>
    rw [hins, Option.getD_none] at hr
    exact Or.inr hr
  | some refs' =>
    rw [hins, Option.getD_some] at hr
    obtain ⟨-, hperm⟩ := gotPathlistInsert_spec gotPathCmp_namePath h hins
    exact List.mem_cons.mp (hperm.mem_iff.mp hr)

/-- What is in the list was there or was inserted. -/
theorem mem_foldl_insertRef {inserted refs : List DiskRef} (h : InOrderOf refKey refs)
    {r : DiskRef} (hr : r ∈ inserted.foldl insertRef refs) : r ∈ refs ∨ r ∈ inserted := by
  induction inserted generalizing refs with
  | nil => exact Or.inl hr
  | cons ref inserted ih =>
    rcases ih (find?_insertRef h ref []).1 hr with hr | hr
    · exact (mem_insertRef h hr).elim (fun heq => Or.inr (heq ▸ List.mem_cons_self)) Or.inl
    · exact Or.inr (List.mem_cons_of_mem _ hr)

/-- **Of references with one key, the first that is inserted stays.** -/
theorem find?_foldl_insertRef (inserted : List DiskRef) {refs : List DiskRef}
    (h : InOrderOf refKey refs) (key : List ℕ) :
    InOrderOf refKey (inserted.foldl insertRef refs) ∧
      (inserted.foldl insertRef refs).find? (refKey · = key) =
        (refs.find? (refKey · = key) <|> inserted.find? (refKey · = key)) := by
  induction inserted generalizing refs with
  | nil =>
    refine ⟨h, ?_⟩
    rw [List.find?_nil, List.foldl_nil]
    cases refs.find? (refKey · = key) <;> rfl
  | cons ref inserted ih =>
    obtain ⟨hins, hfind⟩ := find?_insertRef h ref key
    obtain ⟨hfold, hrest⟩ := ih hins
    refine ⟨hfold, ?_⟩
    rw [List.foldl_cons, hrest, hfind, List.find?_cons, List.find?_cons, List.find?_nil]
    cases refs.find? (refKey · = key) with
    | some r => rfl
    | none => cases decide (refKey ref = key) <;> rfl

/-- Among references in order, a name is found where its key is. -/
theorem find?_name {refs : List DiskRef} (h : InOrderOf refKey refs) (name : Bytes) :
    refs.find? (·.name = name) =
      (refs.find? (refKey · = cmpKey (namePath name))).filter (·.name = name) := by
  induction refs with
  | nil => rfl
  | cons ref refs ih =>
    obtain ⟨href, hrefs⟩ := List.pairwise_cons.mp h
    by_cases hname : ref.name = name
    · have hkey : refKey ref = cmpKey (namePath name) := by rw [refKey, hname]
      rw [List.find?_cons_of_pos (by simpa using hname),
        List.find?_cons_of_pos (by simpa using hkey)]
      simp [Option.filter, hname]
    · rw [List.find?_cons_of_neg (by simpa using hname), ih hrefs]
      by_cases hkey : refKey ref = cmpKey (namePath name)
      · have hnone : refs.find? (refKey · = cmpKey (namePath name)) = none :=
          List.find?_eq_none.mpr fun r hr hrkey =>
            absurd ((of_decide_eq_true hrkey).trans hkey.symm) (ne_of_gt (href r hr))
        rw [hnone, List.find?_cons_of_pos (by simpa using hkey)]
        simp [Option.filter, hname]
      · rw [List.find?_cons_of_neg (by simpa using hkey)]

end RefStore

end Got

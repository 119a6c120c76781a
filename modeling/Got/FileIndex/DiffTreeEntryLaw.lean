import Got.FileIndex.DiffTreeEntry

/-!
# What a comparison with one entry of a tree has to report

A comparison that is given the name of an entry has to report this entry under the path,
with what is below it, and nothing else (`ReportsEntry`). It does so only under conditions on
what is next to this entry and what has the same name elsewhere (`EntryLaw`,
`gotFileindexDiffTreeEntry_law`).

If the tree has the entry, nothing of the index may be met directly in front of it, as this
would be reported in its place, and there must be nothing below it. If the tree does not have
it, an entry of the index with this path is never reported. In directories of the tree that
come before, an entry of this name is reported as well, unless it is a submodule that is
passed over.
-/

namespace Got

open OrderedList MergeJoin

/-! ## The law -/

/-- What there is to be reported of a tree at a path and below it. -/
def itemsAt (q : List Name) (items : List (List Name × TreeEntry)) :
    List (List Name × TreeEntry) :=
  items.filter fun x => !x.2.isSubmodule && decide (q <+: x.1)

namespace Fileindex

/-- **Something of the index is met directly in front** of a path: it comes after all
entries of the tree that come before, and it is not in a directory of the tree in which the
path is not. -/
def MetBefore (fi : Fileindex) (w : List ℕ) (items : List (List Name × TreeEntry))
    (x : List Name) : Prop :=
  ∃ ie ∈ w, gotPathCmp (fi.entry ie).path (relPath x) = .lt
    ∧ (∀ y ∈ items, y.1 < x → gotPathCmp (relPath y.1) (fi.entry ie).path = .lt)
    ∧ ∀ y ∈ items, isOpened y.2 → gotPathIsChild (fi.entry ie).path (relPath y.1) →
      isBelow y.1 x

/-- **An entry of the tree is passed over**: it is a submodule, nothing is met in front of
it, and it has the path of an entry of the index or comes after all of them. -/
def PassedOver (fi : Fileindex) (w : List ℕ) (items : List (List Name × TreeEntry))
    (x : List Name × TreeEntry) : Prop :=
  x.2.isSubmodule ∧ ¬fi.MetBefore w items x.1
    ∧ ((∃ ie ∈ w, (fi.entry ie).path = relPath x.1)
      ∨ ∀ ie ∈ w, gotPathCmp (fi.entry ie).path (relPath x.1) ≠ .gt)

/-- The entries at a path and below it that are written. -/
def liveAt (fi : Fileindex) (q : List Name) : List ℕ :=
  fi.live.filter fun ie =>
    decide ((fi.entry ie).path = relPath q) || gotPathIsChild (fi.entry ie).path (relPath q)

/-- **Exactly some entries are reported**, each of them once and with the callback that
belongs to it. -/
structure ReportsEntry (fi : Fileindex) (live : List ℕ) (items : List (List Name × TreeEntry))
    (rs : List (DiffReport TreeEntry)) : Prop where
  once : rs.Pairwise (fun r r' => r.relpath TreeEntry.name fi ≠ r'.relpath TreeEntry.name fi)
  oldNew_iff : ∀ ie te p, .oldNew ie te p ∈ rs ↔
    ie ∈ live ∧ (p ++ [te.name], te) ∈ items ∧ (fi.entry ie).path = relPath (p ++ [te.name])
  old_iff : ∀ ie, (∃ p, .old ie p ∈ rs) ↔
    ie ∈ live ∧ ∀ x ∈ items, (fi.entry ie).path ≠ relPath x.1
  new_iff : ∀ te p, .new te p ∈ rs ↔
    (p ++ [te.name], te) ∈ items ∧ ∀ ie ∈ live, (fi.entry ie).path ≠ relPath (p ++ [te.name])

/-- **When only what is asked for is reported.** Either the tree has an entry `q`, which is
not a submodule: nothing is met in front of it, what is written of the index at this path or
below it is what the walk sees at this path, and nothing but submodules is below it in the
tree. Entries of the same name that come before it are passed over. Or the tree has no such
entry, or a submodule: then nothing of the index is at this path or below it, and all
entries of this name are passed over. -/
def EntryLaw (fi : Fileindex) (w live : List ℕ) (items : List (List Name × TreeEntry))
    (q : List Name) (e : Name) : Prop :=
  (∃ te, (q, te) ∈ items ∧ ¬te.isSubmodule ∧ ¬fi.MetBefore w items q
      ∧ (∀ ie, ie ∈ live ↔ ie ∈ w ∧ (fi.entry ie).path = relPath q)
      ∧ (∀ x ∈ items, isBelow q x.1 → x.2.isSubmodule)
      ∧ ∀ x ∈ items, x.2.name = e → x.1 < q → fi.PassedOver w items x)
    ∨ (∀ te, (q, te) ∈ items → te.isSubmodule) ∧ live = []
      ∧ ∀ x ∈ items, x.2.name = e → fi.PassedOver w items x

end Fileindex

/-! ## What is met in parts of a tree -/

section Parts

variable {fi : Fileindex} {names : ℕ → List Name} {w w' : List ℕ}
  {items items' : List (List Name × TreeEntry)} {x : List Name} {a : ℕ}

/-- An entry is met directly in front of a path. -/
def IsMetBefore (names : ℕ → List Name) (items : List (List Name × TreeEntry)) (x : List Name)
    (a : ℕ) : Prop :=
  names a < x ∧ (∀ y ∈ items, y.1 < x → y.1 < names a)
    ∧ ∀ y ∈ items, isOpened y.2 → under names y.1 a → isBelow y.1 x

variable (hnames : ∀ ie, (fi.entry ie).path = relPath (names ie))

include hnames

theorem metBefore_iff : fi.MetBefore w items x ↔ ∃ a ∈ w, IsMetBefore names items x a := by
  simp only [Fileindex.MetBefore, IsMetBefore, hnames, gotPathCmp_relPath, linCmp_eq_lt_iff]
  rfl

/-- What it takes for an item to be passed over. -/
theorem passedOver_iff {x : List Name × TreeEntry} : fi.PassedOver w items x
    ↔ x.2.isSubmodule ∧ (∀ a ∈ w, ¬IsMetBefore names items x.1 a)
      ∧ ((∃ a ∈ w, names a = x.1) ∨ ∀ a ∈ w, ¬x.1 < names a) := by
  rw [Fileindex.PassedOver, metBefore_iff hnames]
  simp only [hnames, relPath_injective, gotPathCmp_relPath, ne_eq, linCmp_eq_gt_iff, not_exists,
    not_and]

/-- **What does not matter** for a path can be left out: entries that come before it and are
not met there, and items that do not tell what is. -/
theorem passedOver_congr {x : List Name × TreeEntry} (hsub : ∀ a ∈ w', a ∈ w)
    (hleft : ∀ a ∈ w, a ∈ w' ∨ names a < x.1 ∧ ¬IsMetBefore names items x.1 a)
    (hmet : ∀ a ∈ w', IsMetBefore names items x.1 a ↔ IsMetBefore names items' x.1 a) :
    fi.PassedOver w items x ↔ fi.PassedOver w' items' x := by
  rw [passedOver_iff hnames, passedOver_iff hnames]
  refine and_congr Iff.rfl (and_congr ⟨fun h a ha => ?_, fun h a ha => ?_⟩
    (or_congr ⟨?_, ?_⟩ ⟨?_, ?_⟩))
  · exact mt (hmet a ha).mpr (h a (hsub a ha))
  · rcases hleft a ha with ha' | ⟨-, hnot⟩
    · exact mt (hmet a ha').mp (h a ha')
    · exact hnot
  · rintro ⟨a, ha, heq⟩
    rcases hleft a ha with ha' | ⟨hlt, -⟩
    · exact ⟨a, ha', heq⟩
    · exact absurd heq hlt.ne
  · rintro ⟨a, ha, heq⟩
    exact ⟨a, hsub a ha, heq⟩
  · exact fun h a ha => h a (hsub a ha)
  · intro h a ha
    rcases hleft a ha with ha' | ⟨hlt, -⟩
    · exact h a ha'
    · exact lt_asymm hlt

/-- Whether anything was met before depends only on what is still to come, as far as the items
agree. -/
theorem metBefore_congr (hsub : ∀ a ∈ w', a ∈ w)
    (hleft : ∀ a ∈ w, a ∈ w' ∨ names a < x ∧ ¬IsMetBefore names items x a)
    (hmet : ∀ a ∈ w', IsMetBefore names items x a ↔ IsMetBefore names items' x a) :
    fi.MetBefore w items x ↔ fi.MetBefore w' items' x := by
  rw [metBefore_iff hnames, metBefore_iff hnames]
  constructor
  · rintro ⟨a, ha, h⟩
    rcases hleft a ha with ha' | ⟨-, hnot⟩
    · exact ⟨a, ha', (hmet a ha').mp h⟩
    · exact absurd h hnot
  · rintro ⟨a, ha, h⟩
    exact ⟨a, hsub a ha, (hmet a ha).mpr h⟩

end Parts

/-! ## A tree in parts -/

section Cons

variable {fi : Fileindex} {names : ℕ → List Name} {w w' : List ℕ} {te : TreeEntry}
  {below next : Listing TreeEntry} {p : List Name} {x : List Name × TreeEntry} {a : ℕ}

theorem lt_of_under {q : List Name} (hq : q ≠ []) (h : under names q a) : q < names a := by
  obtain rfl | ⟨n, s, hs⟩ := isBelow_iff.mp h
  · exact absurd rfl hq
  · exact hs ▸ lt_append_of_ne_nil q (List.cons_ne_nil n s)

theorem concat_ne_nil : p ++ [te.name] ≠ [] :=
  List.append_ne_nil_of_right_ne_nil p (List.cons_ne_nil _ _)

/-- The path of what is below an entry. -/
theorem isBelow_of_mem_flat {q : List Name} (hx : x ∈ below.flat TreeEntry.name q) :
    isBelow q x.1 ∧ q < x.1 := by
  obtain ⟨r, -, s, hs⟩ := Listing.path_of_mem_flat hx
  exact ⟨isBelow_iff.mpr (Or.inr ⟨r.name, s, hs⟩),
    hs ▸ lt_append_of_ne_nil q (List.cons_ne_nil r.name s)⟩

/-- What is below an item of a subtree is below the subtree. -/
theorem under_of_under {q : List Name} {y : List Name × TreeEntry}
    (hy : y ∈ below.flat TreeEntry.name q) (h : under names y.1 a) : under names q a := by
  obtain ⟨r, -, s, hs⟩ := Listing.path_of_mem_flat hy
  refine isBelow_iff.mpr (Or.inr ?_)
  obtain hnil | ⟨n, t, ht⟩ := isBelow_iff.mp h
  · rw [hs] at hnil
    exact absurd hnil (List.append_ne_nil_of_right_ne_nil q (List.cons_ne_nil _ _))
  · exact ⟨r.name, s ++ n :: t, by rw [ht, hs, List.append_assoc, List.cons_append]⟩

/-- What comes before an entry of the tree is met before this one, if at all. -/
theorem lt_and_not_isMetBefore {items : List (List Name × TreeEntry)} {x : List Name}
    {y : List Name × TreeEntry} (hy : y ∈ items) (hyx : y.1 < x) (ha : names a ≤ y.1) :
    names a < x ∧ ¬IsMetBefore names items x a :=
  ⟨ha.trans_lt hyx, fun h => not_lt_of_ge ha (h.2.1 y hy hyx)⟩

/-- What is inside a directory of the tree is met there, if at all. -/
theorem lt_and_not_isMetBefore_of_under {items : List (List Name × TreeEntry)} {x : List Name}
    {y : List Name × TreeEntry} (hy : y ∈ items) (hopen : isOpened y.2) (hyx : y.1 < x)
    (hne : y.1 ≠ []) (hx : isBelow y.1 x = false) (ha : under names y.1 a) :
    names a < x ∧ ¬IsMetBefore names items x a := by
  obtain hnil | h := isBelow_iff.mp ha
  · exact absurd hnil hne
  · refine ⟨lt_of_not_isBelow hyx hx h, fun hmet => ?_⟩
    rw [hmet.2.2 y hy hopen ha] at hx
    cases hx

variable (hroots : ∀ r ∈ next.roots, te.name < r.name)

include hroots

/-- What comes after a subtree is not below it. -/
theorem isBelow_eq_false_of_mem_next (hx : x ∈ next.flat TreeEntry.name p) :
    isBelow (p ++ [te.name]) x.1 = false := by
  obtain ⟨r, hr, s, hs⟩ := Listing.path_of_mem_flat hx
  refine eq_false_of_ne_true fun h => ?_
  obtain hnil | ⟨n, t, ht⟩ := isBelow_iff.mp h
  · exact absurd hnil concat_ne_nil
  · rw [hs, List.append_assoc, List.append_cancel_left_eq] at ht
    exact absurd (List.cons.inj ht).1 (hroots r hr).ne'

theorem lt_of_mem_next (hx : x ∈ next.flat TreeEntry.name p) : p ++ [te.name] < x.1 :=
  Listing.lt_of_mem_flat (s := []) hroots rfl hx

/-- **What is met below an entry** is met there. -/
theorem isMetBefore_below (hx : x ∈ below.flat TreeEntry.name (p ++ [te.name]))
    (ha : p ++ [te.name] < names a) :
    IsMetBefore names ((Listing.cons te below next).flat TreeEntry.name p) x.1 a
      ↔ IsMetBefore names (below.flat TreeEntry.name (p ++ [te.name])) x.1 a := by
  obtain ⟨hbelow, hlt⟩ := isBelow_of_mem_flat hx
  constructor
  · rintro ⟨h, hitems, hopened⟩
    have hmem : ∀ y ∈ below.flat TreeEntry.name (p ++ [te.name]),
        y ∈ (Listing.cons te below next).flat TreeEntry.name p := fun y hy =>
      List.mem_cons_of_mem _ (List.mem_append_left _ hy)
    exact ⟨h, fun y hy => hitems y (hmem y hy), fun y hy => hopened y (hmem y hy)⟩
  · rintro ⟨h, hitems, hopened⟩
    have hnext : ∀ y ∈ next.flat TreeEntry.name p, x.1 < y.1 := fun y hy => by
      obtain ⟨r, -, s, hs⟩ := Listing.path_of_mem_flat hx
      exact Listing.lt_of_mem_flat hroots (hs.trans (List.append_assoc _ _ _)) hy
    refine ⟨h, fun y hy hyx => ?_, fun y hy hopen hunder => ?_⟩
    · rcases List.mem_cons.mp hy with rfl | hy
      · exact ha
      rcases List.mem_append.mp hy with hy | hy
      · exact hitems y hy hyx
      · exact absurd hyx (lt_asymm (hnext y hy))
    · rcases List.mem_cons.mp hy with rfl | hy
      · exact hbelow
      rcases List.mem_append.mp hy with hy | hy
      · exact hopened y hy hopen hunder
      · -- what is in a later directory comes later
        have hne : y.1 ≠ [] := List.ne_nil_of_length_pos (by
          obtain ⟨q, hq⟩ := Listing.name_of_mem_flat hy
          rw [hq, List.length_append]
          exact Nat.succ_pos _)
        exact absurd ((lt_of_under hne hunder).trans h) (lt_asymm (hnext y hy))

omit hroots in
/-- **What is met after an entry** is met there. -/
theorem isMetBefore_next (hopens : below ≠ .nil → isOpened te) (ha : p ++ [te.name] < names a)
    (hout : ¬(isOpened te ∧ under names (p ++ [te.name]) a)) :
    IsMetBefore names ((Listing.cons te below next).flat TreeEntry.name p) x.1 a
      ↔ IsMetBefore names (next.flat TreeEntry.name p) x.1 a := by
  constructor
  · rintro ⟨h, hitems, hopened⟩
    have hmem : ∀ y ∈ next.flat TreeEntry.name p,
        y ∈ (Listing.cons te below next).flat TreeEntry.name p := fun y hy =>
      List.mem_cons_of_mem _ (List.mem_append_right _ hy)
    exact ⟨h, fun y hy => hitems y (hmem y hy), fun y hy => hopened y (hmem y hy)⟩
  · rintro ⟨h, hitems, hopened⟩
    have hbelow : ∀ y ∈ below.flat TreeEntry.name (p ++ [te.name]),
        under names (p ++ [te.name]) a = false := by
      intro y hy
      have hne : below ≠ .nil := fun hnil => by rw [hnil] at hy; cases hy
      exact eq_false_of_ne_true fun h => hout ⟨hopens hne, h⟩
    refine ⟨h, fun y hy hyx => ?_, fun y hy hopen hunder => ?_⟩
    · rcases List.mem_cons.mp hy with rfl | hy
      · exact ha
      rcases List.mem_append.mp hy with hy | hy
      · obtain ⟨r, -, s, hs⟩ := Listing.path_of_mem_flat hy
        exact lt_of_not_isBelow ha (hbelow y hy) ⟨r.name, s, hs⟩
      · exact hitems y hy hyx
    · rcases List.mem_cons.mp hy with rfl | hy
      · exact absurd ⟨hopen, hunder⟩ hout
      rcases List.mem_append.mp hy with hy | hy
      · rw [under_of_under hy hunder] at hbelow
        cases hbelow y hy
      · exact hopened y hy hopen hunder

/-- What is left of the entries of the index when an entry of the tree was visited. -/
def IsLeft (names : ℕ → List Name) (p : List Name) (te : TreeEntry) (w w' : List ℕ) : Prop :=
  ∀ a, a ∈ w' ↔ a ∈ w ∧ p ++ [te.name] < names a
    ∧ ¬(isOpened te ∧ under names (p ++ [te.name]) a)

omit hroots in
/-- What is skipped when a subtree is left comes before the next item and was not met. -/
theorem IsLeft.left (hleft : IsLeft names p te w w') (hroots : ∀ r ∈ next.roots, te.name < r.name)
    (hx : x ∈ next.flat TreeEntry.name p) : ∀ a ∈ w, a ∈ w'
      ∨ names a < x.1
        ∧ ¬IsMetBefore names ((Listing.cons te below next).flat TreeEntry.name p) x.1 a := by
  intro a ha
  by_cases hle : names a ≤ p ++ [te.name]
  · exact Or.inr (lt_and_not_isMetBefore List.mem_cons_self (lt_of_mem_next hroots hx) hle)
  by_cases hin : isOpened te ∧ under names (p ++ [te.name]) a
  · exact Or.inr (lt_and_not_isMetBefore_of_under List.mem_cons_self hin.1
      (lt_of_mem_next hroots hx) concat_ne_nil (isBelow_eq_false_of_mem_next hroots hx) hin.2)
  · exact Or.inl ((hleft a).mpr ⟨ha, not_le.mp hle, hin⟩)

variable (hnames : ∀ ie, (fi.entry ie).path = relPath (names ie))

include hnames

/-- What is passed over below a subtree is passed over by the walk as a whole. -/
theorem passedOver_below (hw' : ∀ a, a ∈ w' ↔ a ∈ w ∧ p ++ [te.name] < names a)
    (hx : x ∈ below.flat TreeEntry.name (p ++ [te.name])) :
    fi.PassedOver w ((Listing.cons te below next).flat TreeEntry.name p) x
      ↔ fi.PassedOver w' (below.flat TreeEntry.name (p ++ [te.name])) x := by
  refine passedOver_congr hnames (fun a ha => ((hw' a).mp ha).1) (fun a ha => ?_)
    fun a ha => isMetBefore_below hroots hx ((hw' a).mp ha).2
  by_cases hle : names a ≤ p ++ [te.name]
  · exact Or.inr (lt_and_not_isMetBefore List.mem_cons_self (isBelow_of_mem_flat hx).2 hle)
  · exact Or.inl ((hw' a).mpr ⟨ha, not_le.mp hle⟩)

/-- An item behind a subtree is passed over if it is by the walk that goes on behind it. -/
theorem passedOver_next (hopens : below ≠ .nil → isOpened te) (hleft : IsLeft names p te w w')
    (hx : x ∈ next.flat TreeEntry.name p) :
    fi.PassedOver w ((Listing.cons te below next).flat TreeEntry.name p) x
      ↔ fi.PassedOver w' (next.flat TreeEntry.name p) x :=
  passedOver_congr hnames (fun a ha => ((hleft a).mp ha).1) (hleft.left hroots hx) fun a ha =>
    isMetBefore_next hopens ((hleft a).mp ha).2.1 ((hleft a).mp ha).2.2

/-- What was met before an item behind a subtree was met by the walk that goes on behind it. -/
theorem metBefore_next (hopens : below ≠ .nil → isOpened te) (hleft : IsLeft names p te w w')
    (hx : x ∈ next.flat TreeEntry.name p) :
    fi.MetBefore w ((Listing.cons te below next).flat TreeEntry.name p) x.1
      ↔ fi.MetBefore w' (next.flat TreeEntry.name p) x.1 :=
  metBefore_congr hnames (fun a ha => ((hleft a).mp ha).1) (hleft.left hroots hx) fun a ha =>
    isMetBefore_next hopens ((hleft a).mp ha).2.1 ((hleft a).mp ha).2.2

end Cons

/-! ## When nothing is reported -/

section Silent

variable {fi : Fileindex} {names : ℕ → List Name} {e : Name} {w w' : List ℕ} {te : TreeEntry}
  {below next : Listing TreeEntry} {p : List Name} {x : List Name × TreeEntry} {a : ℕ}

/-- In a sorted list, dropping what is no greater leaves what is greater. -/
theorem mem_dropWhile_le (hw : w.Pairwise (fun a b => names a < names b)) (q : List Name) :
    a ∈ w.dropWhile (fun a => names a ≤ q) ↔ a ∈ w ∧ q < names a := by
  induction w with
  | nil => simp
  | cons b w ih =>
    obtain ⟨hb, hw⟩ := List.pairwise_cons.mp hw
    by_cases hle : names b ≤ q
    · rw [List.dropWhile_cons_of_pos (by simpa using hle), ih hw, List.mem_cons]
      constructor
      · rintro ⟨ha, hlt⟩
        exact ⟨Or.inr ha, hlt⟩
      · rintro ⟨rfl | ha, hlt⟩
        · exact absurd hlt (not_lt_of_ge hle)
        · exact ⟨ha, hlt⟩
    · rw [List.dropWhile_cons_of_neg (by simpa using hle)]
      refine (and_iff_left_of_imp fun ha => ?_).symm
      rcases List.mem_cons.mp ha with rfl | ha
      · exact not_le.mp hle
      · exact (not_le.mp hle).trans (hb a ha)

/-- In a sorted list of what is greater, dropping what is below leaves the rest. -/
theorem mem_dropWhile_under {q : List Name} (hw : w.Pairwise (fun a b => names a < names b))
    (hq : ∀ a ∈ w, q < names a) :
    a ∈ w.dropWhile (under names q) ↔ a ∈ w ∧ under names q a = false := by
  induction w with
  | nil => simp
  | cons b w ih =>
    obtain ⟨hb, hw⟩ := List.pairwise_cons.mp hw
    have hqb := hq b List.mem_cons_self
    by_cases hunder : under names q b
    · rw [List.dropWhile_cons_of_pos hunder,
        ih hw fun a ha => hq a (List.mem_cons_of_mem b ha), List.mem_cons]
      constructor
      · rintro ⟨ha, hnot⟩
        exact ⟨Or.inr ha, hnot⟩
      · rintro ⟨rfl | ha, hnot⟩
        · rw [hunder] at hnot
          cases hnot
        · exact ⟨ha, hnot⟩
    · rw [List.dropWhile_cons_of_neg hunder]
      refine (and_iff_left_of_imp fun ha => eq_false_of_ne_true fun h => ?_).symm
      rcases List.mem_cons.mp ha with rfl | ha
      · exact hunder h
      · -- what is before something below a path is below it
        obtain hnil | ⟨n, s, hs⟩ := isBelow_iff.mp h
        · exact hunder (isBelow_iff.mpr (Or.inl hnil))
        · exact hunder (isBelow_of_lt (Or.inr hqb) (hs ▸ hb a ha))

/-- **What is left** after an entry in which nothing was reported. -/
theorem isLeft_inside (hw : w.Pairwise (fun a b => names a < names b)) :
    IsLeft names p te w (if isOpened te then
      (w.dropWhile fun a => names a ≤ p ++ [te.name]).dropWhile (under names (p ++ [te.name]))
      else w.dropWhile fun a => names a ≤ p ++ [te.name]) := by
  intro a
  have hle := @mem_dropWhile_le names w a hw (p ++ [te.name])
  by_cases hopen : isOpened te
  · rw [if_pos hopen, mem_dropWhile_under (hw.sublist (List.dropWhile_sublist _))
      fun b hb => ((mem_dropWhile_le hw _).mp hb).2, hle, and_assoc, ← Bool.not_eq_true]
    exact and_congr Iff.rfl (and_congr Iff.rfl (not_congr (and_iff_right hopen).symm))
  · rw [if_neg hopen, hle]
    exact and_congr Iff.rfl (and_iff_left fun h => hopen h.1).symm

theorem pairwise_inside (hw : w.Pairwise (fun a b => names a < names b)) :
    (if isOpened te then
      (w.dropWhile fun a => names a ≤ p ++ [te.name]).dropWhile (under names (p ++ [te.name]))
      else w.dropWhile fun a => names a ≤ p ++ [te.name]).Pairwise
        (fun a b => names a < names b) := by
  split
  · exact hw.sublist ((List.dropWhile_sublist _).trans (List.dropWhile_sublist _))
  · exact hw.sublist (List.dropWhile_sublist _)

/-- Nothing below a path is left if what is left is not below something in it. -/
theorem dropWhile_under_of_left (hw : w.Pairwise (fun a b => names a < names b))
    (hp : p = [] ∨ ∀ a ∈ w, p < names a) (hleft : IsLeft names p te w w')
    (hw' : w'.Pairwise (fun a b => names a < names b)) :
    w'.dropWhile (under names p) = w.dropWhile (under names p) := by
  rcases hp with rfl | hp
  · -- everything is below the root
    have hall : ∀ v : List ℕ, v.dropWhile (under names []) = [] := fun v =>
      List.dropWhile_eq_nil_iff.mpr fun a _ => isBelow_iff.mpr (Or.inl rfl)
    rw [hall, hall]
  refine InOrder.ext (hw'.sublist (List.dropWhile_sublist _))
    (hw.sublist (List.dropWhile_sublist _)) fun a => ?_
  rw [mem_dropWhile_under hw' fun a ha => hp a ((hleft a).mp ha).1, mem_dropWhile_under hw hp,
    hleft a]
  constructor
  · rintro ⟨⟨ha, -, -⟩, hnot⟩
    exact ⟨ha, hnot⟩
  · rintro ⟨ha, hnot⟩
    refine ⟨⟨ha, ?_, ?_⟩, hnot⟩
    · by_contra hle
      rcases lt_or_eq_of_le (not_lt.mp hle) with hlt | heq
      · rw [under, isBelow_of_lt (Or.inr (hp a ha)) hlt] at hnot
        cases hnot
      · rw [under, heq, isBelow_iff.mpr (Or.inr ⟨te.name, [], rfl⟩)] at hnot
        cases hnot
    · rintro ⟨-, h⟩
      obtain hnil | ⟨n, s, hs⟩ := isBelow_iff.mp h
      · exact absurd hnil concat_ne_nil
      · have hbelow : isBelow p (names a) = true :=
          isBelow_iff.mpr (Or.inr ⟨te.name, n :: s, hs.trans (List.append_assoc _ _ _)⟩)
        rw [under, hbelow] at hnot
        cases hnot

end Silent

section Silent

variable {fi : Fileindex} {names : ℕ → List Name} {e : Name} {w w' : List ℕ} {te : TreeEntry}
  {below next : Listing TreeEntry} {p : List Name} {x : List Name × TreeEntry} {a : ℕ}

/-- Nothing of the tree comes before its first entry. -/
theorem le_of_mem_flat (ht : (Listing.cons te below next).Sorted TreeEntry.name)
    (hx : x ∈ (Listing.cons te below next).flat TreeEntry.name p) : p ++ [te.name] ≤ x.1 := by
  rcases List.mem_cons.mp hx with rfl | hx
  · exact le_refl _
  · exact ((List.pairwise_cons.mp (Listing.Sorted.flat ht)).1 x hx).le

/-- Before the first item nothing was met but what sorts before it. -/
theorem isMetBefore_head (ht : (Listing.cons te below next).Sorted TreeEntry.name) :
    IsMetBefore names ((Listing.cons te below next).flat TreeEntry.name p) (p ++ [te.name]) a
      ↔ names a < p ++ [te.name] := by
  refine ⟨And.left, fun h => ⟨h, fun y hy hlt => ?_, fun y hy _ hunder => ?_⟩⟩
  · exact absurd hlt (not_lt_of_ge (le_of_mem_flat ht hy))
  · have hle := le_of_mem_flat ht hy
    have hne : y.1 ≠ [] := by
      obtain ⟨q, hq⟩ := Listing.name_of_mem_flat hy
      exact hq ▸ concat_ne_nil
    exact absurd (hle.trans_lt (lt_of_under hne hunder)) (lt_asymm h)

/-- What there is below an entry that is opened, and that there is nothing otherwise. -/
theorem opened_cases
    (hopens : openSubtree p te = .ok none ∧ below = .nil
      ∨ ∃ sub, openSubtree p te = .ok (some sub)
        ∧ below.Opens TreeEntry.name openSubtree (p ++ [te.name]) sub) :
    isOpened te = false ∧ below = .nil
      ∨ isOpened te = true
        ∧ ∃ sub, below.Opens TreeEntry.name openSubtree (p ++ [te.name]) sub := by
  rcases hopens with ⟨hopen, hnil⟩ | ⟨sub, hopen, hsub⟩
  · exact Or.inl ⟨isOpened_eq_false hopen, hnil⟩
  · exact Or.inr ⟨isOpened_eq_true hopen, sub, hsub⟩

theorem isOpened_of_isSubmodule (h : te.isSubmodule = true) : isOpened te = false := by
  rw [isOpened, h]
  rfl

variable (hnames : ∀ ie, (fi.entry ie).path = relPath (names ie))

include hnames

theorem passedOver_head (ht : (Listing.cons te below next).Sorted TreeEntry.name) :
    fi.PassedOver w ((Listing.cons te below next).flat TreeEntry.name p) (p ++ [te.name], te)
      ↔ te.isSubmodule ∧ (∀ a ∈ w, ¬names a < p ++ [te.name])
        ∧ ((∃ a ∈ w, names a = p ++ [te.name]) ∨ ∀ a ∈ w, ¬p ++ [te.name] < names a) := by
  rw [passedOver_iff hnames]
  simp only [isMetBefore_head ht]

/-- **An entry that is asked for is reported**, unless it is passed over. -/
theorem visit_asked (ht : (Listing.cons te below next).Sorted TreeEntry.name) (hte : te.name = e)
    (hw : w.Pairwise (fun a b => names a < names b)) :
    (fi.PassedOver w ((Listing.cons te below next).flat TreeEntry.name p) (p ++ [te.name], te)
        ∧ ∃ w', IsLeft names p te w w' ∧ w'.Pairwise (fun a b => names a < names b)
          ∧ visit names e p (.cons te below next) w = visit names e p next w')
      ∨ ¬fi.PassedOver w ((Listing.cons te below next).flat TreeEntry.name p)
            (p ++ [te.name], te)
        ∧ ((∃ a rest, w = a :: rest ∧ names a < p ++ [te.name]
              ∧ visit names e p (.cons te below next) w = ([.old a p], w))
          ∨ (∀ a ∈ w, ¬names a < p ++ [te.name])
            ∧ ((∃ a rest, w = a :: rest ∧ names a = p ++ [te.name] ∧ te.isSubmodule = false
                ∧ visit names e p (.cons te below next) w = ([.oldNew a te p], w))
              ∨ (∀ a ∈ w, p ++ [te.name] < names a)
                ∧ (te.isSubmodule = false ∨ w ≠ [])
                ∧ visit names e p (.cons te below next) w = ([.new te p], w))) := by
  rw [passedOver_head hnames ht]
  cases w with
  | nil =>
    rw [visit, if_pos hte]
    cases hsub : te.isSubmodule with
    | true =>
      refine Or.inl ⟨⟨rfl, fun a ha => absurd ha List.not_mem_nil,
        Or.inr fun a ha => absurd ha List.not_mem_nil⟩, [], fun a => ?_, List.Pairwise.nil,
        if_pos rfl⟩
      exact iff_of_false List.not_mem_nil fun h => List.not_mem_nil h.1
    | false =>
      refine Or.inr ⟨fun h => Bool.false_ne_true h.1, Or.inr
        ⟨fun a ha => absurd ha List.not_mem_nil, Or.inr
          ⟨fun a ha => absurd ha List.not_mem_nil, Or.inl rfl, if_neg Bool.false_ne_true⟩⟩⟩
  | cons a rest =>
    obtain ⟨hafter, hrest⟩ := List.pairwise_cons.mp hw
    rw [visit, if_pos hte]
    rcases lt_trichotomy (names a) (p ++ [te.name]) with hlt | heq | hlt
    · rw [if_pos hlt]
      exact Or.inr ⟨fun h => h.2.1 a List.mem_cons_self hlt, Or.inl ⟨a, rest, rfl, hlt, rfl⟩⟩
    · have hge : ∀ b ∈ a :: rest, ¬names b < p ++ [te.name] := by
        intro b hb
        rcases List.mem_cons.mp hb with rfl | hb
        · exact not_lt_of_ge heq.ge
        · exact lt_asymm (heq ▸ hafter b hb)
      rw [if_neg (not_lt_of_ge heq.ge), if_neg (not_lt_of_ge heq.le)]
      cases hsub : te.isSubmodule with
      | true =>
        refine Or.inl ⟨⟨rfl, hge, Or.inl ⟨a, List.mem_cons_self, heq⟩⟩, rest, fun b => ?_, hrest,
          if_pos rfl⟩
        rw [isOpened_of_isSubmodule hsub]
        constructor
        · intro hb
          exact ⟨List.mem_cons_of_mem a hb, heq ▸ hafter b hb, fun h => Bool.false_ne_true h.1⟩
        · rintro ⟨hb, hlt, -⟩
          rcases List.mem_cons.mp hb with rfl | hb
          · exact absurd heq hlt.ne'
          · exact hb
      | false =>
        exact Or.inr ⟨fun h => Bool.false_ne_true h.1, Or.inr ⟨hge, Or.inl
          ⟨a, rest, rfl, heq, rfl, if_neg Bool.false_ne_true⟩⟩⟩
    · have hgt : ∀ b ∈ a :: rest, p ++ [te.name] < names b := by
        intro b hb
        rcases List.mem_cons.mp hb with rfl | hb
        · exact hlt
        · exact hlt.trans (hafter b hb)
      rw [if_neg (lt_asymm hlt), if_pos hlt]
      refine Or.inr ⟨?_, Or.inr ⟨fun b hb => lt_asymm (hgt b hb), Or.inr
        ⟨hgt, Or.inr (List.cons_ne_nil a rest), rfl⟩⟩⟩
      rintro ⟨-, -, ⟨b, hb, heq⟩ | hnone⟩
      · exact absurd heq (hgt b hb).ne'
      · exact hnone a List.mem_cons_self hlt

/-- **Nothing is reported** exactly if all entries of the name are passed over, and then what
is below the path is left behind. -/
theorem visit_eq_nil_iff {t : Listing TreeEntry} {items : List TreeEntry}
    (ht : t.Sorted TreeEntry.name) (hopens : t.Opens TreeEntry.name openSubtree p items)
    (hw : w.Pairwise (fun a b => names a < names b)) (hp : p = [] ∨ ∀ a ∈ w, p < names a) :
    ((visit names e p t w).1 = []
        ↔ ∀ x ∈ t.flat TreeEntry.name p, x.2.name = e →
          fi.PassedOver w (t.flat TreeEntry.name p) x)
      ∧ ((visit names e p t w).1 = [] →
        (visit names e p t w).2 = w.dropWhile (under names p)) := by
  induction t generalizing p items w with
  | nil =>
    rw [visit]
    exact ⟨iff_of_true rfl fun x hx => absurd hx List.not_mem_nil, fun _ => rfl⟩
  | cons te below next ihb ihn =>
    obtain ⟨rest, rfl, hrest, hopens⟩ := hopens
    have hsorted := ht
    obtain ⟨hroots, hbelow, hnext⟩ := ht
    have hcases := opened_cases hopens
    have hopened : below ≠ .nil → isOpened te := fun hne =>
      (hcases.resolve_left fun h => hne h.2).1
    -- what is to be shown of the entries after this one
    have hgo : ∀ w', IsLeft names p te w w' → w'.Pairwise (fun a b => names a < names b) →
        ((visit names e p next w').1 = []
            ↔ ∀ x ∈ next.flat TreeEntry.name p, x.2.name = e →
              fi.PassedOver w ((Listing.cons te below next).flat TreeEntry.name p) x)
          ∧ ((visit names e p next w').1 = [] →
            (visit names e p next w').2 = w.dropWhile (under names p)) := by
      intro w' hleft hw'
      obtain ⟨hiff, hrem⟩ := ihn hnext hrest hw'
        (hp.imp_right fun h a ha => h a ((hleft a).mp ha).1)
      refine ⟨hiff.trans (forall₂_congr fun x hx => ?_), fun h => ?_⟩
      · rw [passedOver_next hroots hnames hopened hleft hx]
      · rw [hrem h, dropWhile_under_of_left hw hp hleft hw']
    have hflat : ∀ P : List Name × TreeEntry → Prop,
        (∀ x ∈ (Listing.cons te below next).flat TreeEntry.name p, P x)
          ↔ P (p ++ [te.name], te)
            ∧ (∀ x ∈ below.flat TreeEntry.name (p ++ [te.name]), P x)
            ∧ ∀ x ∈ next.flat TreeEntry.name p, P x := by
      intro P
      rw [Listing.flat, List.forall_mem_cons, List.forall_mem_append]
    rw [hflat]
    by_cases hte : te.name = e
    · rcases visit_asked hnames hsorted hte hw with
        ⟨hpass, w', hleft, hw', hvisit⟩ | ⟨hnot, hreport⟩
      · obtain ⟨hiff, hrem⟩ := hgo w' hleft hw'
        have hnil : below = .nil := by
          refine (hcases.resolve_right fun h => ?_).2
          rw [isOpened_of_isSubmodule hpass.1] at h
          exact Bool.false_ne_true h.1
        subst hnil
        rw [hvisit]
        exact ⟨hiff.trans ⟨fun h => ⟨fun _ => hpass, fun x hx => absurd hx List.not_mem_nil, h⟩,
          fun h => h.2.2⟩, hrem⟩
      · have hne : (visit names e p (.cons te below next) w).1 ≠ [] := by
          rcases hreport with ⟨a, rest, -, -, h⟩ | ⟨-, ⟨a, rest, -, -, -, h⟩ | ⟨-, -, h⟩⟩ <;>
            rw [h] <;> exact List.cons_ne_nil _ _
        exact ⟨iff_of_false hne fun h => hnot (h.1 hte), fun h => absurd h hne⟩
    · rw [visit_of_ne hte]
      have hahead : ∀ a, a ∈ (w.dropWhile fun a => names a ≤ p ++ [te.name])
          ↔ a ∈ w ∧ p ++ [te.name] < names a := fun a => mem_dropWhile_le hw _
      have hwahead := hw.sublist (List.dropWhile_sublist (fun a => names a ≤ p ++ [te.name]))
      have hleft := @isLeft_inside names w te p hw
      have hwleft := @pairwise_inside names w te p hw
      rcases hcases with ⟨hopen, rfl⟩ | ⟨hopen, sub, hsub⟩
      · rw [hopen, if_neg Bool.false_ne_true] at hleft hwleft ⊢
        obtain ⟨hiff, hrem⟩ := hgo _ hleft hwleft
        exact ⟨hiff.trans ⟨fun h => ⟨fun h => absurd h hte, fun x hx => absurd hx List.not_mem_nil,
          h⟩, fun h => h.2.2⟩, hrem⟩
      · rw [hopen, if_pos rfl] at hleft hwleft ⊢
        obtain ⟨hiffb, hremb⟩ := ihb hbelow hsub hwahead
          (Or.inr fun a ha => ((hahead a).mp ha).2)
        have hinside : (visit names e (p ++ [te.name]) below
              (w.dropWhile fun a => names a ≤ p ++ [te.name])).1 = []
            ↔ ∀ x ∈ below.flat TreeEntry.name (p ++ [te.name]), x.2.name = e →
              fi.PassedOver w ((Listing.cons te below next).flat TreeEntry.name p) x :=
          hiffb.trans (forall₂_congr fun x hx => by
            rw [passedOver_below hroots hnames hahead hx])
        dsimp only
        rw [List.append_eq_nil_iff, ← hinside]
        constructor
        · constructor
          · rintro ⟨hnil, hrest⟩
            rw [hremb hnil] at hrest
            exact ⟨fun h => absurd h hte, hnil, (hgo _ hleft hwleft).1.mp hrest⟩
          · rintro ⟨-, hnil, h⟩
            rw [hremb hnil]
            exact ⟨hnil, (hgo _ hleft hwleft).1.mpr h⟩
        · rintro ⟨hnil, hrest⟩
          rw [hremb hnil] at hrest ⊢
          exact (hgo _ hleft hwleft).2 hrest

end Silent

/-! ## What is reported -/

section Reports

variable {fi : Fileindex} {names : ℕ → List Name} {e : Name} {w live : List ℕ} {te : TreeEntry}
  {p q : List Name} {a : ℕ} {items : List (List Name × TreeEntry)}
  {rs : List (DiffReport TreeEntry)} {r : DiffReport TreeEntry}

/-- The path of what is reported, as names. -/
def reportNames (names : ℕ → List Name) (r : DiffReport TreeEntry) : List Name :=
  (r.joined TreeEntry.name).key names Prod.fst

variable (hnames : ∀ ie, (fi.entry ie).path = relPath (names ie))

include hnames

/-- **What is reported is below the path.** -/
theorem isBelow_of_mem_visit {t : Listing TreeEntry} {sub : List TreeEntry}
    (ht : t.Sorted TreeEntry.name) (hopens : t.Opens TreeEntry.name openSubtree p sub)
    (hw : w.Pairwise (fun a b => names a < names b)) (hp : p = [] ∨ ∀ a ∈ w, p < names a) :
    ∀ r ∈ (visit names e p t w).1, isBelow p (reportNames names r) := by
  induction t generalizing p sub w with
  | nil =>
    rw [visit]
    exact fun r hr => absurd hr List.not_mem_nil
  | cons te below next ihb ihn =>
    obtain ⟨rest, rfl, hrest, hopens⟩ := hopens
    have hsorted := ht
    obtain ⟨-, hbelow, hnext⟩ := ht
    have hitem : isBelow p (p ++ [te.name]) = true := isBelow_iff.mpr (Or.inr ⟨te.name, [], rfl⟩)
    have hsublist : ∀ {v : List ℕ}, v.Sublist w → p = [] ∨ ∀ a ∈ v, p < names a := fun hv =>
      hp.imp_right fun h a ha => h a (hv.mem ha)
    by_cases hte : te.name = e
    · rcases visit_asked hnames hsorted hte hw with
        ⟨-, w', hleft, hw', hvisit⟩ | ⟨-, ⟨a, rest, rfl, hlt, hvisit⟩
          | ⟨-, ⟨a, rest, -, heq, -, hvisit⟩ | ⟨-, -, hvisit⟩⟩⟩
      · rw [hvisit]
        exact ihn hnext hrest hw' (hp.imp_right fun h a ha => h a ((hleft a).mp ha).1)
      · rw [hvisit]
        rintro r hr
        obtain rfl := List.mem_singleton.mp hr
        exact isBelow_of_lt (hp.imp_right fun h => h a List.mem_cons_self) hlt
      · rw [hvisit]
        rintro r hr
        obtain rfl := List.mem_singleton.mp hr
        show isBelow p (names a) = true
        rw [heq, hitem]
      · rw [hvisit]
        rintro r hr
        obtain rfl := List.mem_singleton.mp hr
        exact hitem
    · rw [visit_of_ne hte]
      intro r hr
      have hdrop := List.dropWhile_sublist (fun a => names a ≤ p ++ [te.name]) (l := w)
      rcases List.mem_append.mp hr with hr | hr
      · split at hr
        · next hopen =>
          rcases opened_cases hopens with ⟨hclosed, -⟩ | ⟨-, sub, hsub⟩
          · rw [hclosed] at hopen
            cases hopen
          have hin := ihb hbelow hsub (hw.sublist hdrop)
            (Or.inr fun a ha => ((mem_dropWhile_le hw _).mp ha).2) r hr
          obtain hnil | ⟨n, s, hs⟩ := isBelow_iff.mp hin
          · exact absurd hnil concat_ne_nil
          · exact isBelow_iff.mpr (Or.inr ⟨te.name, n :: s, hs.trans (List.append_assoc _ _ _)⟩)
        · exact absurd hr List.not_mem_nil
      · have hrem : (if isOpened te then visit names e (p ++ [te.name]) below
              (w.dropWhile fun a => names a ≤ p ++ [te.name])
            else ([], w.dropWhile fun a => names a ≤ p ++ [te.name])).2.Sublist w := by
          split
          · exact (visit_sublist below _ _).trans hdrop
          · exact hdrop
        exact ihn hnext hrest (hw.sublist hrem) (hsublist hrem) r hr

omit hnames in
/-- **A report of something else** is wrong. -/
theorem not_reportsEntry_of_mem (hlive : ∀ ie ∈ live, q <+: names ie)
    (hitems : ∀ x ∈ items, q <+: x.1) (hr : r ∈ rs) (hout : ¬q <+: reportNames names r) :
    ¬fi.ReportsEntry live items rs := by
  intro h
  cases r with
  | oldNew ie te p => exact hout (hlive ie ((h.oldNew_iff ie te p).mp hr).1)
  | old ie p => exact hout (hlive ie ((h.old_iff ie).mp ⟨p, hr⟩).1)
  | new te p => exact hout (hitems _ ((h.new_iff te p).mp hr).1)

variable (hitem : ∀ x ∈ items, ∃ p, x.1 = p ++ [x.2.name])

include hitem

omit hnames in
/-- **All that there is is reported.** -/
theorem Fileindex.ReportsEntry.cases (h : fi.ReportsEntry live items rs) :
    (∀ ie ∈ live, (∃ te p, .oldNew ie te p ∈ rs) ∨ ∃ p, .old ie p ∈ rs)
      ∧ ∀ x ∈ items, ∃ p, x.1 = p ++ [x.2.name]
        ∧ ((∃ ie, .oldNew ie x.2 p ∈ rs) ∨ .new x.2 p ∈ rs) := by
  constructor
  · intro ie hie
    by_cases hx : ∃ x ∈ items, (fi.entry ie).path = relPath x.1
    · obtain ⟨x, hx, heq⟩ := hx
      obtain ⟨p, hp⟩ := hitem x hx
      have hmem : (p ++ [x.2.name], x.2) ∈ items := hp ▸ hx
      exact Or.inl ⟨x.2, p, (h.oldNew_iff ie x.2 p).mpr ⟨hie, hmem, hp ▸ heq⟩⟩
    · exact Or.inr ((h.old_iff ie).mpr ⟨hie, fun x hmem heq => hx ⟨x, hmem, heq⟩⟩)
  · intro x hx
    obtain ⟨p, hp⟩ := hitem x hx
    have hmem : (p ++ [x.2.name], x.2) ∈ items := hp ▸ hx
    refine ⟨p, hp, ?_⟩
    by_cases hie : ∃ ie ∈ live, (fi.entry ie).path = relPath (p ++ [x.2.name])
    · obtain ⟨ie, hie, heq⟩ := hie
      exact Or.inl ⟨ie, (h.oldNew_iff ie x.2 p).mpr ⟨hie, hmem, heq⟩⟩
    · exact Or.inr ((h.new_iff x.2 p).mpr ⟨hmem, fun ie hmem heq => hie ⟨ie, hmem, heq⟩⟩)

omit hnames in
/-- Nothing is reported, and there is nothing. -/
theorem reportsEntry_nil_iff : fi.ReportsEntry live items [] ↔ live = [] ∧ items = [] := by
  constructor
  · intro h
    obtain ⟨hlive, hitems⟩ := h.cases hitem
    refine ⟨List.eq_nil_iff_forall_not_mem.mpr fun ie hie => ?_,
      List.eq_nil_iff_forall_not_mem.mpr fun x hx => ?_⟩
    · rcases hlive ie hie with ⟨te, p, hr⟩ | ⟨p, hr⟩ <;> cases hr
    · obtain ⟨p, -, ⟨ie, hr⟩ | hr⟩ := hitems x hx <;> cases hr
  · rintro ⟨rfl, rfl⟩
    exact ⟨List.Pairwise.nil, fun _ _ _ => by simp, fun _ => by simp, fun _ _ => by simp⟩

omit hnames in
/-- Something new is reported, and there is nothing else. -/
theorem reportsEntry_new_iff : fi.ReportsEntry live items [.new te p]
    ↔ live = [] ∧ ∀ x, x ∈ items ↔ x = (p ++ [te.name], te) := by
  constructor
  · intro h
    obtain ⟨hlive, hitems⟩ := h.cases hitem
    refine ⟨List.eq_nil_iff_forall_not_mem.mpr fun ie hie => ?_, fun x => ⟨fun hx => ?_, ?_⟩⟩
    · rcases hlive ie hie with ⟨te, p, hr⟩ | ⟨p, hr⟩ <;> cases List.mem_singleton.mp hr
    · obtain ⟨p', hp', ⟨ie, hr⟩ | hr⟩ := hitems x hx
      · cases List.mem_singleton.mp hr
      · obtain ⟨hte, rfl⟩ := DiffReport.new.inj (List.mem_singleton.mp hr)
        exact Prod.ext (hp'.trans (by rw [hte])) hte
    · rintro rfl
      exact ((h.new_iff te p).mp List.mem_cons_self).1
  · rintro ⟨rfl, hitems⟩
    refine ⟨List.pairwise_singleton _ _, fun ie te' p' => ?_, fun ie => ?_, fun te' p' => ?_⟩
    · exact iff_of_false (fun h => by cases List.mem_singleton.mp h)
        fun h => absurd h.1 List.not_mem_nil
    · refine iff_of_false ?_ fun h => absurd h.1 List.not_mem_nil
      rintro ⟨p', h⟩
      cases List.mem_singleton.mp h
    · rw [hitems, List.mem_singleton, and_iff_left fun ie hie => absurd hie List.not_mem_nil]
      constructor
      · intro h
        obtain ⟨rfl, rfl⟩ := DiffReport.new.inj h
        rfl
      · intro h
        obtain ⟨hpath, rfl⟩ := Prod.ext_iff.mp h
        rw [List.append_cancel_right hpath]

/-- Something of the index and of the tree is reported, and there is nothing else. -/
theorem reportsEntry_oldNew_iff (ha : names a = p ++ [te.name]) :
    fi.ReportsEntry live items [.oldNew a te p]
      ↔ (∀ ie, ie ∈ live ↔ ie = a) ∧ ∀ x, x ∈ items ↔ x = (p ++ [te.name], te) := by
  constructor
  · intro h
    obtain ⟨hlive, hitems⟩ := h.cases hitem
    obtain ⟨hmem, hmem', -⟩ := (h.oldNew_iff a te p).mp List.mem_cons_self
    refine ⟨fun ie => ⟨fun hie => ?_, fun h => h ▸ hmem⟩,
      fun x => ⟨fun hx => ?_, fun h => h ▸ hmem'⟩⟩
    · rcases hlive ie hie with ⟨te', p', hr⟩ | ⟨p', hr⟩
      · exact (DiffReport.oldNew.inj (List.mem_singleton.mp hr)).1
      · cases List.mem_singleton.mp hr
    · obtain ⟨p', hp', ⟨ie, hr⟩ | hr⟩ := hitems x hx
      · obtain ⟨-, hte, rfl⟩ := DiffReport.oldNew.inj (List.mem_singleton.mp hr)
        exact Prod.ext (hp'.trans (by rw [hte])) hte
      · cases List.mem_singleton.mp hr
  · rintro ⟨hlive, hitems⟩
    refine ⟨List.pairwise_singleton _ _, fun ie te' p' => ?_, fun ie => ?_, fun te' p' => ?_⟩
    · rw [hlive, hitems, List.mem_singleton]
      constructor
      · intro h
        obtain ⟨rfl, rfl, rfl⟩ := DiffReport.oldNew.inj h
        exact ⟨rfl, rfl, (hnames ie).trans (congrArg relPath ha)⟩
      · rintro ⟨rfl, h, -⟩
        obtain ⟨hpath, rfl⟩ := Prod.ext_iff.mp h
        rw [List.append_cancel_right hpath]
    · refine iff_of_false ?_ ?_
      · rintro ⟨p', h⟩
        cases List.mem_singleton.mp h
      · rintro ⟨hie, hnone⟩
        obtain rfl := (hlive ie).mp hie
        exact hnone _ ((hitems _).mpr rfl) ((hnames ie).trans (congrArg relPath ha))
    · refine iff_of_false (fun h => by cases List.mem_singleton.mp h) ?_
      rintro ⟨hmem, hnone⟩
      have hpath := congrArg Prod.fst ((hitems _).mp hmem)
      exact hnone a ((hlive a).mpr rfl) ((hnames a).trans (congrArg relPath (ha.trans hpath.symm)))

end Reports

/-! ## The law holds -/

section Law

variable {fi : Fileindex} {names : ℕ → List Name} {e : Name} {w live : List ℕ} {te : TreeEntry}
  {below next : Listing TreeEntry} {p q : List Name} {items : List (List Name × TreeEntry)}
  {x : List Name × TreeEntry}

theorem mem_itemsAt : x ∈ itemsAt q items ↔ x ∈ items ∧ x.2.isSubmodule = false ∧ q <+: x.1 := by
  rw [itemsAt, List.mem_filter, Bool.and_eq_true, decide_eq_true_eq, Bool.not_eq_true']

/-- Below another entry there is nothing of what is asked for. -/
theorem not_prefix_of_isBelow {y : List Name} (hte : te.name ≠ e)
    (hy : y = p ++ [te.name] ∨ isBelow (p ++ [te.name]) y) : ¬p ++ [e] <+: y := by
  have hshape : ∃ s, y = p ++ te.name :: s := by
    rcases hy with rfl | hy
    · exact ⟨[], rfl⟩
    · obtain hnil | ⟨n, s, hs⟩ := isBelow_iff.mp hy
      · exact absurd hnil concat_ne_nil
      · exact ⟨n :: s, hs.trans (List.append_assoc _ _ _)⟩
  obtain ⟨s, rfl⟩ := hshape
  rintro ⟨t, ht⟩
  rw [List.append_assoc, List.append_cancel_left_eq] at ht
  exact hte (List.cons.inj ht).1.symm

/-- In the entries after one of the name there is nothing of it. -/
theorem not_prefix_of_mem_next (hroots : ∀ r ∈ next.roots, te.name < r.name)
    (hx : x ∈ next.flat TreeEntry.name p) : ¬p ++ [te.name] <+: x.1 := by
  rintro ⟨s, hs⟩
  have hfalse := isBelow_eq_false_of_mem_next hroots hx
  obtain ⟨r, hr, t, ht⟩ := Listing.path_of_mem_flat hx
  rw [← hs, List.append_assoc, List.append_cancel_left_eq] at ht
  exact (hroots r hr).ne (List.cons.inj ht).1

/-- What there is of an entry, in the first of some entries and in those after it. -/
theorem itemsAt_of_ne (hte : te.name ≠ e) :
    itemsAt (p ++ [e]) ((Listing.cons te below next).flat TreeEntry.name p)
      = itemsAt (p ++ [e]) (next.flat TreeEntry.name p) := by
  have hnone : itemsAt (p ++ [e]) (below.flat TreeEntry.name (p ++ [te.name])) = [] :=
    List.eq_nil_iff_forall_not_mem.mpr fun x hx => by
      obtain ⟨hmem, -, hpre⟩ := mem_itemsAt.mp hx
      exact not_prefix_of_isBelow hte (Or.inr (isBelow_of_mem_flat hmem).1) hpre
  have hhead : (!te.isSubmodule && decide (p ++ [e] <+: p ++ [te.name])) = false := by
    rw [decide_eq_false (not_prefix_of_isBelow hte (Or.inl rfl)), Bool.and_false]
  unfold itemsAt at hnone ⊢
  rw [Listing.flat, List.filter_cons_of_neg (by rw [hhead]; exact Bool.false_ne_true),
    List.filter_append, hnone, List.nil_append]

/-- Of the first entry, if it is what is asked for. -/
theorem mem_itemsAt_self (hroots : ∀ r ∈ next.roots, te.name < r.name) :
    x ∈ itemsAt (p ++ [te.name]) ((Listing.cons te below next).flat TreeEntry.name p)
      ↔ x.2.isSubmodule = false ∧ (x = (p ++ [te.name], te)
        ∨ x ∈ below.flat TreeEntry.name (p ++ [te.name])) := by
  rw [mem_itemsAt, Listing.flat, List.mem_cons, List.mem_append]
  constructor
  · rintro ⟨hx | hx | hx, hsub, hpre⟩
    · exact ⟨hsub, Or.inl hx⟩
    · exact ⟨hsub, Or.inr hx⟩
    · exact absurd hpre (not_prefix_of_mem_next hroots hx)
  · rintro ⟨hsub, rfl | hx⟩
    · exact ⟨Or.inl rfl, hsub, List.prefix_refl _⟩
    · obtain ⟨r, -, s, hs⟩ := Listing.path_of_mem_flat hx
      exact ⟨Or.inr (Or.inl hx), hsub, ⟨_, hs.symm⟩⟩

variable (hnames : ∀ ie, (fi.entry ie).path = relPath (names ie))

include hnames

/-- **The law is that of the entries after one** that is not asked for, if nothing was
reported there. -/
theorem entryLaw_next (ht : (Listing.cons te below next).Sorted TreeEntry.name)
    (hopened : below ≠ .nil → isOpened te) (hte : te.name ≠ e) {w' : List ℕ}
    (hleft : IsLeft names p te w w')
    (hpassed : ∀ x ∈ below.flat TreeEntry.name (p ++ [te.name]), x.2.name = e →
      fi.PassedOver w ((Listing.cons te below next).flat TreeEntry.name p) x) :
    fi.EntryLaw w live ((Listing.cons te below next).flat TreeEntry.name p) (p ++ [e]) e
      ↔ fi.EntryLaw w' live (next.flat TreeEntry.name p) (p ++ [e]) e := by
  obtain ⟨hroots, -, -⟩ := ht
  have hmem : ∀ x, p ++ [e] <+: x.1 →
      (x ∈ (Listing.cons te below next).flat TreeEntry.name p
        ↔ x ∈ next.flat TreeEntry.name p) := by
    intro x hpre
    rw [Listing.flat, List.mem_cons, List.mem_append]
    constructor
    · rintro (rfl | hx | hx)
      · exact absurd hpre (not_prefix_of_isBelow hte (Or.inl rfl))
      · exact absurd hpre (not_prefix_of_isBelow hte (Or.inr (isBelow_of_mem_flat hx).1))
      · exact hx
    · exact fun hx => Or.inr (Or.inr hx)
  have hnext : ∀ x ∈ next.flat TreeEntry.name p,
      x ∈ (Listing.cons te below next).flat TreeEntry.name p := fun x hx =>
    List.mem_cons_of_mem _ (List.mem_append_right _ hx)
  -- whether all of the name, up to some path, are passed over
  have hall : ∀ P : List Name → Prop,
      (∀ x ∈ (Listing.cons te below next).flat TreeEntry.name p, x.2.name = e → P x.1 →
          fi.PassedOver w ((Listing.cons te below next).flat TreeEntry.name p) x)
        ↔ ∀ x ∈ next.flat TreeEntry.name p, x.2.name = e → P x.1 →
          fi.PassedOver w' (next.flat TreeEntry.name p) x := by
    intro P
    constructor
    · intro h x hx he hP
      exact (passedOver_next hroots hnames hopened hleft hx).mp (h x (hnext x hx) he hP)
    · intro h x hx he hP
      rcases List.mem_cons.mp hx with rfl | hx
      · exact absurd he hte
      rcases List.mem_append.mp hx with hx | hx
      · exact hpassed x hx he
      · exact (passedOver_next hroots hnames hopened hleft hx).mpr (h x hx he hP)
  refine or_congr (exists_congr fun te' => ?_) (and_congr ?_ (and_congr Iff.rfl ?_))
  · rw [hmem (p ++ [e], te') (List.prefix_refl _)]
    refine and_congr_right fun hx => and_congr Iff.rfl (and_congr ?_ (and_congr ?_
      (and_congr ?_ (hall fun y => y < p ++ [e]))))
    · exact not_congr (metBefore_next hroots hnames hopened hleft hx)
    · refine forall_congr' fun ie => iff_congr Iff.rfl ?_
      constructor
      · rintro ⟨hie, hpath⟩
        rcases @IsLeft.left names w w' te below next p _ hleft hroots hx ie hie with h | ⟨hlt, -⟩
        · exact ⟨h, hpath⟩
        · rw [hnames, relPath_injective] at hpath
          exact absurd hpath hlt.ne
      · rintro ⟨hie, hpath⟩
        exact ⟨((hleft ie).mp hie).1, hpath⟩
    · refine forall_congr' fun x => ⟨fun h hx hbelow => h (hnext x hx) hbelow,
        fun h hx hbelow => h ((hmem x ?_).mp hx) hbelow⟩
      obtain hnil | ⟨n, s, hs⟩ := isBelow_iff.mp hbelow
      · exact absurd hnil (List.append_ne_nil_of_right_ne_nil p (List.cons_ne_nil e []))
      · exact ⟨_, hs.symm⟩
  · exact forall_congr' fun te' => by rw [hmem (p ++ [e], te') (List.prefix_refl _)]
  · simpa using hall fun _ => True

omit hnames in
/-- An entry that is the first one is the only one with its path. -/
theorem eq_of_mem_flat (ht : (Listing.cons te below next).Sorted TreeEntry.name) {te' : TreeEntry}
    (h : (p ++ [te.name], te') ∈ (Listing.cons te below next).flat TreeEntry.name p) :
    te' = te := by
  rcases List.mem_cons.mp h with h | h
  · exact congrArg Prod.snd h
  · have hlt := (List.pairwise_cons.mp (Listing.Sorted.flat (p := p) ht)).1 _ h
    exact absurd hlt (lt_irrefl _)

omit hnames in
/-- Nothing but the first entry itself is to be reported of it if there are only submodules
below. -/
theorem forall_mem_itemsAt_iff (ht : (Listing.cons te below next).Sorted TreeEntry.name)
    (hsub : te.isSubmodule = false) :
    (∀ x, x ∈ itemsAt (p ++ [te.name]) ((Listing.cons te below next).flat TreeEntry.name p)
        ↔ x = (p ++ [te.name], te))
      ↔ ∀ x ∈ (Listing.cons te below next).flat TreeEntry.name p, isBelow (p ++ [te.name]) x.1 →
        x.2.isSubmodule := by
  have hroots := ht.1
  constructor
  · intro h x hx hbelow
    obtain hnil | ⟨n, s, hs⟩ := isBelow_iff.mp hbelow
    · exact absurd hnil concat_ne_nil
    by_contra hnot
    have hmem : x ∈ itemsAt (p ++ [te.name]) ((Listing.cons te below next).flat TreeEntry.name p) :=
      mem_itemsAt.mpr ⟨hx, eq_false_of_ne_true hnot, ⟨_, hs.symm⟩⟩
    rw [(h x).mp hmem] at hs
    exact absurd hs (lt_append_of_ne_nil _ (List.cons_ne_nil n s)).ne
  · intro h x
    rw [mem_itemsAt_self hroots]
    constructor
    · rintro ⟨hnot, hx | hx⟩
      · exact hx
      · have hmem : x ∈ (Listing.cons te below next).flat TreeEntry.name p :=
          List.mem_cons_of_mem _ (List.mem_append_left _ hx)
        rw [h x hmem (isBelow_of_mem_flat hx).1] at hnot
        cases hnot
    · rintro rfl
      exact ⟨hsub, Or.inl rfl⟩

/-- **The law if what is asked for is the first entry**, and not a submodule. -/
theorem entryLaw_self (ht : (Listing.cons te below next).Sorted TreeEntry.name)
    (hsub : te.isSubmodule = false) (hge : ∀ a ∈ w, ¬names a < p ++ [te.name]) :
    fi.EntryLaw w live ((Listing.cons te below next).flat TreeEntry.name p) (p ++ [te.name]) te.name
      ↔ (∀ ie, ie ∈ live ↔ ie ∈ w ∧ names ie = p ++ [te.name])
        ∧ ∀ x, x ∈ itemsAt (p ++ [te.name]) ((Listing.cons te below next).flat TreeEntry.name p)
          ↔ x = (p ++ [te.name], te) := by
  have hpath : ∀ ie, (fi.entry ie).path = relPath (p ++ [te.name]) ↔ names ie = p ++ [te.name] :=
    fun ie => by rw [hnames, relPath_injective]
  rw [forall_mem_itemsAt_iff ht hsub, Fileindex.EntryLaw]
  simp only [hpath]
  constructor
  · rintro (⟨te', hmem, -, -, hlive, hbelow, -⟩ | ⟨hall, -, -⟩)
    · exact ⟨hlive, hbelow⟩
    · rw [hall te List.mem_cons_self] at hsub
      cases hsub
  · rintro ⟨hlive, hbelow⟩
    refine Or.inl ⟨te, List.mem_cons_self, by rw [hsub]; exact Bool.false_ne_true, ?_, hlive,
      hbelow, fun x hx _ hlt => absurd hlt (not_lt_of_ge (le_of_mem_flat ht hx))⟩
    rw [metBefore_iff hnames]
    rintro ⟨a, ha, h⟩
    exact hge a ha ((isMetBefore_head ht).mp h)

/-- **The law is the condition** under which the walk on lists reports what is asked for. -/
theorem reportsEntry_visit_iff {t : Listing TreeEntry} {sub : List TreeEntry}
    (ht : t.Sorted TreeEntry.name) (hopens : t.Opens TreeEntry.name openSubtree p sub)
    (hw : w.Pairwise (fun a b => names a < names b)) (hp : p = [] ∨ ∀ a ∈ w, p < names a)
    (hlive : ∀ ie ∈ live, p ++ [e] <+: names ie) :
    fi.ReportsEntry live (itemsAt (p ++ [e]) (t.flat TreeEntry.name p)) (visit names e p t w).1
      ↔ fi.EntryLaw w live (t.flat TreeEntry.name p) (p ++ [e]) e := by
  have hitem : ∀ x ∈ itemsAt (p ++ [e]) (t.flat TreeEntry.name p), ∃ p, x.1 = p ++ [x.2.name] :=
    fun x hx => Listing.name_of_mem_flat (mem_itemsAt.mp hx).1
  have hpre : ∀ x ∈ itemsAt (p ++ [e]) (t.flat TreeEntry.name p), p ++ [e] <+: x.1 :=
    fun x hx => (mem_itemsAt.mp hx).2.2
  induction t generalizing sub w with
  | nil =>
    rw [visit, reportsEntry_nil_iff hitem, 
      and_iff_left (show itemsAt (p ++ [e]) (Listing.nil.flat TreeEntry.name p) = [] from rfl)]
    constructor
    · intro h
      exact Or.inr ⟨fun te hte => absurd hte List.not_mem_nil, h,
        fun x hx => absurd hx List.not_mem_nil⟩
    · rintro (⟨te, hte, -⟩ | ⟨-, h, -⟩)
      · exact absurd hte List.not_mem_nil
      · exact h
  | cons te below next ihb ihn =>
    obtain ⟨rest, rfl, hrest, hopens⟩ := hopens
    have hsorted := ht
    obtain ⟨hroots, hbelow, hnext⟩ := ht
    have hcases := opened_cases hopens
    have hopened : below ≠ .nil → isOpened te := fun hne =>
      (hcases.resolve_left fun h => hne h.2).1
    have hgo : ∀ w', IsLeft names p te w w' → w'.Pairwise (fun a b => names a < names b) →
        (fi.ReportsEntry live (itemsAt (p ++ [e]) (next.flat TreeEntry.name p))
            (visit names e p next w').1
          ↔ fi.EntryLaw w' live (next.flat TreeEntry.name p) (p ++ [e]) e) :=
      fun w' hleft hw' => ihn hnext hrest hw' (hp.imp_right fun h a ha => h a ((hleft a).mp ha).1)
        (fun x hx => Listing.name_of_mem_flat (mem_itemsAt.mp hx).1)
        fun x hx => (mem_itemsAt.mp hx).2.2
    by_cases hte : te.name = e
    · subst hte
      rcases visit_asked hnames hsorted rfl hw with
        ⟨hpass, w', hleft, hw', hvisit⟩ | ⟨hnot, hreport⟩
      · -- a submodule is passed over, and there is nothing to be reported
        have hsub : te.isSubmodule = true := hpass.1
        have hnil : below = .nil := by
          refine (hcases.resolve_right fun h => ?_).2
          rw [isOpened_of_isSubmodule hsub] at h
          exact Bool.false_ne_true h.1
        subst hnil
        have hnone : itemsAt (p ++ [te.name]) ((Listing.cons te .nil next).flat TreeEntry.name p)
            = itemsAt (p ++ [te.name]) (next.flat TreeEntry.name p) := by
          have hhead : (!te.isSubmodule && decide (p ++ [te.name] <+: p ++ [te.name])) = false := by
            rw [hsub]
            rfl
          unfold itemsAt
          exact List.filter_cons_of_neg (by rw [hhead]; exact Bool.false_ne_true)
        have hone : ∀ te', (p ++ [te.name], te') ∈ next.flat TreeEntry.name p → False :=
          fun te' h => not_prefix_of_mem_next hroots h (List.prefix_refl _)
        rw [hvisit, hnone, hgo w' hleft hw']
        refine or_congr (iff_of_false ?_ ?_) (and_congr (iff_of_true ?_ ?_) (and_congr Iff.rfl ?_))
        · rintro ⟨te', hmem, -⟩
          exact hone te' hmem
        · rintro ⟨te', hmem, hnot, -⟩
          exact hnot (eq_of_mem_flat hsorted hmem ▸ hsub)
        · exact fun te' hmem => absurd hmem (hone te')
        · exact fun te' hmem => eq_of_mem_flat hsorted hmem ▸ hsub
        · constructor
          · intro h x hx he
            rcases List.mem_cons.mp hx with rfl | hx
            · exact hpass
            · exact (passedOver_next hroots hnames hopened hleft hx).mpr (h x hx he)
          · exact fun h x hx he => (passedOver_next hroots hnames hopened hleft hx).mp
              (h x (List.mem_cons_of_mem _ hx) he)
      · have hsecond : ¬∀ x ∈ (Listing.cons te below next).flat TreeEntry.name p,
            x.2.name = te.name →
              fi.PassedOver w ((Listing.cons te below next).flat TreeEntry.name p) x :=
          fun h => hnot (h _ List.mem_cons_self rfl)
        rcases hreport with ⟨a, rest, rfl, hlt, hvisit⟩
          | ⟨hge, ⟨a, rest, rfl, heq, hsub, hvisit⟩ | ⟨hgt, hsub, hvisit⟩⟩
        · -- something is met in front and reported in the place of the entry
          rw [hvisit]
          refine iff_of_false (not_reportsEntry_of_mem hlive hpre List.mem_cons_self ?_) ?_
          · rintro ⟨s, hs⟩
            have hs : p ++ [te.name] ++ s = names a := hs
            rw [← hs] at hlt
            cases s with
            | nil => exact absurd hlt (by rw [List.append_nil]; exact lt_irrefl _)
            | cons n s => exact lt_asymm hlt (lt_append_of_ne_nil _ (List.cons_ne_nil n s))
          · rintro (⟨te', -, -, hmet, -⟩ | ⟨-, -, hall⟩)
            · exact hmet ((metBefore_iff hnames).mpr
                ⟨a, List.mem_cons_self, (isMetBefore_head hsorted).mpr hlt⟩)
            · exact hsecond hall
        · rw [hvisit, reportsEntry_oldNew_iff hnames hitem heq,
            entryLaw_self hnames hsorted hsub hge]
          refine and_congr (forall_congr' fun ie => iff_congr Iff.rfl ?_) Iff.rfl
          constructor
          · rintro rfl
            exact ⟨List.mem_cons_self, heq⟩
          · rintro ⟨hie, h⟩
            rcases List.mem_cons.mp hie with rfl | hie
            · rfl
            · exact absurd (heq.trans h.symm) ((List.pairwise_cons.mp hw).1 ie hie).ne
        · rw [hvisit, reportsEntry_new_iff hitem]
          cases hcase : te.isSubmodule with
          | false =>
            rw [entryLaw_self hnames hsorted hcase hge]
            refine and_congr ⟨?_, fun h => ?_⟩ Iff.rfl
            · rintro rfl ie
              exact iff_of_false List.not_mem_nil fun h => (hgt ie h.1).ne' h.2
            · refine List.eq_nil_iff_forall_not_mem.mpr fun ie hie => ?_
              obtain ⟨hmem, hpath⟩ := (h ie).mp hie
              exact (hgt ie hmem).ne' hpath
          | true =>
            refine iff_of_false ?_ ?_
            · rintro ⟨-, h⟩
              have hfalse := (mem_itemsAt.mp ((h _).mpr rfl)).2.1
              rw [hcase] at hfalse
              cases hfalse
            · rintro (⟨te', hmem, hnosub, -⟩ | ⟨-, -, hall⟩)
              · exact hnosub (eq_of_mem_flat hsorted hmem ▸ hcase)
              · exact hsecond hall
    · rw [visit_of_ne hte, itemsAt_of_ne hte]
      have hahead : ∀ a, a ∈ (w.dropWhile fun a => names a ≤ p ++ [te.name])
          ↔ a ∈ w ∧ p ++ [te.name] < names a := fun a => mem_dropWhile_le hw _
      have hwahead := hw.sublist (List.dropWhile_sublist (fun a => names a ≤ p ++ [te.name]))
      have hleft := @isLeft_inside names w te p hw
      have hwleft := @pairwise_inside names w te p hw
      have hpreNext : ∀ x ∈ itemsAt (p ++ [e]) (next.flat TreeEntry.name p), p ++ [e] <+: x.1 :=
        fun x hx => (mem_itemsAt.mp hx).2.2
      rcases hcases with ⟨hopen, rfl⟩ | ⟨hopen, sub, hsub⟩
      · rw [hopen, if_neg Bool.false_ne_true] at hleft hwleft ⊢
        rw [entryLaw_next hnames hsorted hopened hte hleft fun x hx => absurd hx List.not_mem_nil]
        exact hgo _ hleft hwleft
      · rw [hopen, if_pos rfl] at hleft hwleft ⊢
        obtain ⟨hiff, hrem⟩ := @visit_eq_nil_iff fi names e _ _ hnames below sub hbelow hsub hwahead
          (Or.inr fun a ha => ((hahead a).mp ha).2)
        have hinside : (visit names e (p ++ [te.name]) below
              (w.dropWhile fun a => names a ≤ p ++ [te.name])).1 = []
            ↔ ∀ x ∈ below.flat TreeEntry.name (p ++ [te.name]), x.2.name = e →
              fi.PassedOver w ((Listing.cons te below next).flat TreeEntry.name p) x :=
          hiff.trans (forall₂_congr fun x hx => by
            rw [passedOver_below hroots hnames hahead hx])
        dsimp only
        by_cases hnil : (visit names e (p ++ [te.name]) below
            (w.dropWhile fun a => names a ≤ p ++ [te.name])).1 = []
        · rw [entryLaw_next hnames hsorted hopened hte hleft (hinside.mp hnil), hnil,
            List.nil_append, hrem hnil]
          exact hgo _ hleft hwleft
        · obtain ⟨r, hr⟩ := List.exists_mem_of_ne_nil _ hnil
          have hrbelow := isBelow_of_mem_visit hnames hbelow hsub hwahead
            (Or.inr fun a ha => ((hahead a).mp ha).2) r hr
          refine iff_of_false (not_reportsEntry_of_mem hlive hpreNext (List.mem_append_left _ hr)
            (not_prefix_of_isBelow hte (Or.inr hrbelow))) ?_
          have hstray := mt hinside.mpr hnil
          rintro (⟨te', hmem, -, -, -, -, hall⟩ | ⟨-, -, hall⟩)
          · refine hstray fun x hx he => hall x (List.mem_cons_of_mem _ (List.mem_append_left _ hx))
              he ?_
            -- what is asked for is behind
            have hmem' : (p ++ [e], te') ∈ next.flat TreeEntry.name p := by
              rcases List.mem_cons.mp hmem with h | h
              · exact absurd (List.append_cancel_left (congrArg Prod.fst h)) fun h =>
                  hte (List.cons.inj h).1.symm
              rcases List.mem_append.mp h with h | h
              · exact absurd (List.prefix_refl _)
                  (not_prefix_of_isBelow hte (Or.inr (isBelow_of_mem_flat h).1))
              · exact h
            obtain ⟨r, -, s, hs⟩ := Listing.path_of_mem_flat hx
            exact Listing.lt_of_mem_flat hroots (hs.trans (List.append_assoc _ _ _)) hmem'
          · exact hstray fun x hx he =>
              hall x (List.mem_cons_of_mem _ (List.mem_append_left _ hx)) he

end Law

namespace Fileindex

/-- **When only what is asked for is reported**, by a comparison whose callbacks do not fail, with a
tree of which all directories can be opened, if all paths fit into the bits for their length. The
walk goes through the whole tree, with the name to look for in its subtrees as well. Where an entry
of the index comes first, it is the name of the tree entry at hand that is compared, and where the
tree has ended nothing is compared at all. -/
theorem gotFileindexDiffTreeEntry_law {cb : DiffCb TreeEntry} {fi : Fileindex}
    {tree : List TreeEntry} {path : List Name} {t : Listing TreeEntry} {fuel : ℕ} (e : Name)
    (hcb : ∀ rs r fi, ∃ ops, cb rs r fi = .ok ops) (hfi : fi.Ordered)
    (hshort : ∀ ie ∈ fi.entries, (fi.entry ie).path.length ≤ MAX_PATH_LEN)
    (htree : NameOrder tree) (hopens : t.Opens TreeEntry.name openSubtree path tree)
    (hfuel : fi.entries.length + t.size < fuel) :
    ∃ s, gotFileindexDiffTreeEntry cb (some e) fuel fi tree path = .ok s
      ∧ (fi.ReportsEntry (fi.liveAt (path ++ [e]))
          (itemsAt (path ++ [e]) (t.flat TreeEntry.name path)) s.reported
        ↔ fi.EntryLaw (fi.walkedFrom (relPath path)) (fi.liveAt (path ++ [e]))
          (t.flat TreeEntry.name path) (path ++ [e]) e) := by
  obtain ⟨names, hnames⟩ := exists_names hfi
  obtain ⟨-, hstart, hw, hp, hlen⟩ := @onWalk_walkedFrom TreeEntry fi names path hnames hfi hshort
  obtain ⟨s, hok, -, hreported⟩ := visitsFor (e := e) hcb t path tree _ _ fuel hopens hw hp
    (Nat.lt_of_le_of_lt (Nat.add_le_add_right hlen t.size) hfuel)
  have hlive : ∀ ie ∈ fi.liveAt (path ++ [e]), path ++ [e] <+: names ie := by
    intro ie hie
    have hat := (List.mem_filter.mp hie).2
    rw [Bool.or_eq_true, decide_eq_true_eq, hnames, relPath_injective] at hat
    rcases hat with heq | hbelow
    · exact heq ▸ List.prefix_refl _
    · obtain hnil | ⟨n, s, hs⟩ := isBelow_iff.mp hbelow
      · exact absurd hnil (List.append_ne_nil_of_right_ne_nil path (List.cons_ne_nil e []))
      · exact ⟨_, hs.symm⟩
  refine ⟨s, by rw [gotFileindexDiffTreeEntry, hstart, hok]; rfl, ?_⟩
  rw [hreported, List.nil_append]
  exact reportsEntry_visit_iff hnames (hopens.sorted openSubtree_sorted htree).2 hopens hw.inOrder
    hp hlive

/-! ## A file that is gone from the tree -/

/-- An index with one file. -/
def aIndex : Fileindex := ⟨[FileindexEntry.alloc (relPath aPath.1)], [0], 1⟩

/-- An index of one entry is in order. -/
theorem ordered_aIndex : aIndex.Ordered where
  isEntry e he := by
    obtain rfl := List.mem_singleton.mp he
    exact FileindexEntry.isEntry_alloc aPath
  valid ie hie := by
    obtain rfl := List.mem_singleton.mp hie
    exact Nat.one_pos
  inOrder := List.pairwise_singleton _ 0
  le_nentries := by decide
  nentries_le := by decide

def bName : Name := ⟨['b'], isName_b⟩

/-- Another file, which comes after it. -/
def bBlob : TreeEntry := ⟨0o100644, bName, .foreign zeroSha1⟩

/-- The index compared with a tree that has the other file, which is asked for. -/
theorem aIndex_reportsEntry_iff :
    ∃ s, gotFileindexDiffTreeEntry (fun _ _ _ => .ok []) (some bName) 3 aIndex [bBlob] [] = .ok s
      ∧ (aIndex.ReportsEntry (aIndex.liveAt [bName])
          (itemsAt [bName] ((Listing.cons bBlob .nil .nil).flat TreeEntry.name [])) s.reported
        ↔ aIndex.EntryLaw (aIndex.walkedFrom []) (aIndex.liveAt [bName])
          ((Listing.cons bBlob .nil .nil).flat TreeEntry.name []) [bName] bName) :=
  gotFileindexDiffTreeEntry_law bName (fun _ _ _ => ⟨[], rfl⟩) ordered_aIndex (by decide +kernel)
    (List.pairwise_singleton _ _) ⟨[], rfl, rfl, Or.inl ⟨rfl, rfl⟩⟩ (by decide)

/-- **The file that is gone is reported** in the place of the one that is asked for. -/
theorem gone_not_reportsEntry :
    ∃ s, gotFileindexDiffTreeEntry (fun _ _ _ => .ok []) (some bName) 3 aIndex [bBlob] [] = .ok s
      ∧ ¬aIndex.ReportsEntry (aIndex.liveAt [bName])
        (itemsAt [bName] ((Listing.cons bBlob .nil .nil).flat TreeEntry.name [])) s.reported := by
  refine ⟨⟨aIndex, [.old 0 []]⟩, rfl, fun h => ?_⟩
  have hmem := ((h.old_iff 0).mp ⟨[], List.mem_cons_self⟩).1
  exact absurd hmem (by decide +kernel)

end Fileindex

end Got

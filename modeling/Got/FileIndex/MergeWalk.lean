import Got.FileIndex.Walk
import Got.Lib.MergeJoin
import Mathlib.Data.List.TakeDrop
import Mathlib.Data.List.TakeWhile

/-!
# Comparing the file index with something nested

The file index is a list of paths. What it is compared with is nested: a tree,
or a directory on disk, whose entries have entries of their own. The comparison
goes down into these while it walks over the list.

`MergeWalk` says what the two comparisons of the source have in common, one
round of their loop after the other. From this, `MergeWalk.spec` shows that the
nesting does not matter: what is reported is what is met if the two are joined
as flat lists, for all that is below a path comes directly after it.
-/

namespace Got

open OrderedList MergeJoin

variable {δ : Type}

/-! ## Below a path -/

/-- Whether a path is below another. -/
def isBelow (p x : List Name) : Bool := gotPathIsChild (relPath x) (relPath p)

theorem gotPathIsChild_of_not_root {parent child : Str} (hlen : parent ≠ [])
    (hroot : gotPathIsRootDir parent = false) :
    gotPathIsChild child parent
      = if ¬parent <+: child then false else child[parent.length]? = some '/' := by
  rw [gotPathIsChild, if_neg (by simp [hlen, hroot])]

/-- A relative path has a separator less than an absolute one. -/
theorem gotPathIsChild_relPath {p x : List Name} (hp : p ≠ []) (hx : x ≠ []) :
    gotPathIsChild (relPath x) (relPath p) = gotPathIsChild (absPath x) (absPath p) := by
  have habs : gotPathIsRootDir (absPath p) = false :=
    eq_false_of_ne_true fun h => hp ((gotPathIsRootDir_absPath p).mp h)
  obtain ⟨n, p, rfl⟩ := List.exists_cons_of_ne_nil hp
  obtain ⟨m, x, rfl⟩ := List.exists_cons_of_ne_nil hx
  obtain ⟨c, cs, hc, hne⟩ := relPath_head n p
  have hroot : gotPathIsRootDir (relPath (n :: p)) = false := by
    refine decide_eq_false ?_
    rw [dropWhile_relPath, hc]
    exact List.cons_ne_nil c cs
  rw [absPath_of_ne_nil hp, slashed_cons] at habs ⊢
  rw [absPath_of_ne_nil hx, slashed_cons,
    gotPathIsChild_of_not_root (hc ▸ List.cons_ne_nil c cs) hroot,
    gotPathIsChild_of_not_root (List.cons_ne_nil _ _) habs]
  simp only [List.cons_prefix_cons, true_and, List.length_cons, List.getElem?_cons_succ]

/-- A path is below another when it starts with it. -/
theorem isBelow_iff {p x : List Name} : isBelow p x ↔ p = [] ∨ ∃ n s, x = p ++ n :: s := by
  unfold isBelow
  by_cases hp : p = []
  · subst hp
    exact ⟨fun _ => Or.inl rfl, fun _ => rfl⟩
  · by_cases hx : x = []
    · subst hx
      obtain ⟨n, p, rfl⟩ := List.exists_cons_of_ne_nil hp
      obtain ⟨c, cs, hc, hne⟩ := relPath_head n p
      have hfalse : gotPathIsChild (relPath []) (relPath (n :: p)) = false := by
        have hroot : gotPathIsRootDir (c :: cs) = false := by
          simp [gotPathIsRootDir, hne]
        rw [hc]
        simp [gotPathIsChild, hroot, relPath]
      rw [hfalse]
      simp
    · rw [gotPathIsChild_relPath hp hx, gotPathIsChild_absPath hx]
      simp [hp]

theorem append_lt_append_iff {α : Type} [LinearOrder α] (p : List α) {x y : List α} :
    p ++ x < p ++ y ↔ x < y := by
  induction p with
  | nil => rfl
  | cons a p ih => rw [List.cons_append, List.cons_append, List.cons_lt_cons_iff, ih]; simp

/-- What comes before something below a path is below it. -/
theorem isBelow_of_lt {p x s : List Name} (hp : p = [] ∨ p < x) (hx : x < p ++ s) :
    isBelow p x := by
  rw [isBelow_iff]
  rcases hp with rfl | hp
  · exact Or.inl rfl
  · obtain ⟨t, ht, rfl⟩ := eq_append_of_between hp hx
    obtain ⟨n, t, rfl⟩ := List.exists_cons_of_ne_nil ht
    exact Or.inr ⟨n, t, rfl⟩

/-- What comes after a path and is not below it comes after all that is. -/
theorem lt_of_not_isBelow {q x y : List Name} (hq : q < x) (hx : isBelow q x = false)
    (hy : ∃ n s, y = q ++ n :: s) : y < x := by
  obtain ⟨n, s, rfl⟩ := hy
  by_contra hge
  rcases lt_or_eq_of_le (not_lt.mp hge) with hlt | rfl
  · rw [isBelow_of_lt (Or.inr hq) hlt] at hx
    exact nomatch hx
  · rw [isBelow_iff.mpr (Or.inr ⟨n, s, rfl⟩)] at hx
    exact nomatch hx

/-! ## Something nested -/

/-- **Something nested**: a list of items, with what is below each of them, if
that is looked at. -/
inductive Listing (δ : Type)
  | nil
  | cons (item : δ) (below next : Listing δ)

namespace Listing

variable (name : δ → Name)

/-- The items by themselves. -/
def roots : Listing δ → List δ
  | nil => []
  | cons item _ next => item :: next.roots

/-- How many items a listing has. -/
def size : Listing δ → ℕ
  | nil => 0
  | cons _ below next => below.size + next.size + 1

/-- The items on each level are in the order of their names. -/
def Sorted : Listing δ → Prop
  | nil => True
  | cons item below next =>
    (∀ x ∈ next.roots, name item < name x) ∧ below.Sorted ∧ next.Sorted

/-- **All items with their paths**, what is below an item directly after it. -/
def flat : List Name → Listing δ → List (List Name × δ)
  | _, nil => []
  | p, cons item below next =>
    (p ++ [name item], item) :: (flat (p ++ [name item]) below ++ flat p next)

/-- What is found if one looks at what is below the items. -/
def Opens (openBelow : List Name → δ → Except GotErr (Option (List δ))) :
    List Name → Listing δ → List δ → Prop
  | _, nil, items => items = []
  | p, cons item below next, items =>
    ∃ rest, items = item :: rest ∧ Opens openBelow p next rest
      ∧ (openBelow p item = .ok none ∧ below = nil
        ∨ ∃ sub, openBelow p item = .ok (some sub) ∧ Opens openBelow (p ++ [name item]) below sub)

variable {name} {p : List Name} {t : Listing δ}

/-- **What is found is in order** if all that is found below an item is. -/
theorem Opens.sorted {openBelow : List Name → δ → Except GotErr (Option (List δ))} {items : List δ}
    (hsub : ∀ p item sub, openBelow p item = .ok (some sub) → InOrderOf name sub)
    (hopens : t.Opens name openBelow p items) (hitems : InOrderOf name items) :
    t.roots = items ∧ Sorted name t := by
  induction t generalizing p items with
  | nil =>
    obtain rfl : items = [] := hopens
    exact ⟨rfl, trivial⟩
  | cons item below next ihb ihn =>
    obtain ⟨rest, rfl, hrest, hbelow⟩ := hopens
    obtain ⟨hlt, hord⟩ := List.pairwise_cons.mp hitems
    obtain ⟨hroots, hnext⟩ := ihn hrest hord
    refine ⟨congrArg (item :: ·) hroots, fun x hx => hlt x (hroots ▸ hx), ?_, hnext⟩
    rcases hbelow with ⟨-, rfl⟩ | ⟨sub, hopen, hbelow⟩
    · trivial
    · exact (ihb hbelow (hsub p item sub hopen)).2

/-- The path of an item begins with that of one of the first level. -/
theorem path_of_mem_flat {x : List Name × δ} (hx : x ∈ flat name p t) :
    ∃ r ∈ t.roots, ∃ s, x.1 = p ++ name r :: s := by
  induction t generalizing p with
  | nil => exact absurd hx List.not_mem_nil
  | cons item below next ihb ihn =>
    rcases List.mem_cons.mp hx with rfl | hx
    · exact ⟨item, List.mem_cons_self, [], rfl⟩
    · rcases List.mem_append.mp hx with hx | hx
      · obtain ⟨r, -, s, hs⟩ := ihb hx
        exact ⟨item, List.mem_cons_self, name r :: s, by rw [hs, List.append_assoc]; rfl⟩
      · obtain ⟨r, hr, s, hs⟩ := ihn hx
        exact ⟨r, List.mem_cons_of_mem item hr, s, hs⟩

/-- The path of an item ends with its name. -/
theorem name_of_mem_flat {x : List Name × δ} (hx : x ∈ flat name p t) :
    ∃ q, x.1 = q ++ [name x.2] := by
  induction t generalizing p with
  | nil => exact absurd hx List.not_mem_nil
  | cons item below next ihb ihn =>
    rcases List.mem_cons.mp hx with rfl | hx
    · exact ⟨p, rfl⟩
    · exact (List.mem_append.mp hx).elim ihb ihn

/-- What is below an item comes before the items after it. -/
theorem lt_of_mem_flat {item : δ} {y s : List Name} {x : List Name × δ}
    (h : ∀ r ∈ t.roots, name item < name r) (hy : y = p ++ name item :: s)
    (hx : x ∈ flat name p t) : y < x.1 := by
  obtain ⟨r, hr, s', hs'⟩ := path_of_mem_flat hx
  rw [hy, hs', append_lt_append_iff]
  exact List.cons_lt_cons_iff.mpr (Or.inl (h r hr))

/-- **All items are in the order of their paths.** -/
theorem Sorted.flat (h : Sorted name t) :
    (Listing.flat name p t).Pairwise (fun x y => x.1 < y.1) := by
  induction t generalizing p with
  | nil => exact List.Pairwise.nil
  | cons item below next ihb ihn =>
    obtain ⟨hroots, hbelow, hnext⟩ := h
    refine List.pairwise_cons.mpr ⟨fun x hx => ?_, ?_⟩
    · rcases List.mem_append.mp hx with hx | hx
      · obtain ⟨r, -, s, hs⟩ := path_of_mem_flat hx
        rw [hs]
        exact lt_append_of_ne_nil _ (List.cons_ne_nil _ _)
      · exact lt_of_mem_flat hroots rfl hx
    · refine List.pairwise_append.mpr ⟨ihb hbelow, ihn hnext, fun x hx y hy => ?_⟩
      obtain ⟨r, -, s, hs⟩ := path_of_mem_flat hx
      refine lt_of_mem_flat hroots (s := name r :: s) ?_ hy
      rw [hs, List.append_assoc]
      rfl

end Listing

/-! ## The loop -/

/-- What goes on when a comparison is at some items, in a directory, and at an
entry of the file index. -/
abbrev DiffLoop (δ : Type) :=
  List δ → List Name → Option ℕ → WalkState δ → Except GotErr (Option ℕ × WalkState δ)

/-- Compare an entry of the file index with an item, whose path is made of that
of the directory and its name. -/
def cmpItem (e : FileindexEntry) (p : List Name) (n : Name) : Ordering :=
  gotPathCmpLen e.path (relPath p ++ '/' :: n.val) e.pathLen (relPath p ++ '/' :: n.val).length

section Loop

variable (cb : DiffCb δ) (name : δ → Name) (skip : δ → Bool)
  (openBelow : List Name → δ → Except GotErr (Option (List δ)))

/-- Go down into an item, if there is something below it to look at. -/
def walkBelow (diff : DiffLoop δ) (item : δ) (p : List Name) (ie : Option ℕ) (s : WalkState δ) :
    Except GotErr (Option ℕ × WalkState δ) := do
  match ← openBelow p item with
  | none => return (ie, s)
  | some items => diff items (p ++ [name item]) ie s

/-- **What comparisons have in common**: what a round of the loop does. An item
that is to be skipped is not reported, except if it is found to be alone while
there are entries left in the file index. -/
structure MergeWalk (diff : ℕ → DiffLoop δ) : Prop where
  done : ∀ fuel p s, diff (fuel + 1) [] p none s = .ok (none, s)
  done_of_not_child : ∀ fuel p a s, gotPathIsChild (s.fi.entry a).path (relPath p) = false →
    diff (fuel + 1) [] p (some a) s = .ok (some a, s)
  old : ∀ fuel items p a next s s', gotPathIsChild (s.fi.entry a).path (relPath p) = true →
    (∀ item ∈ items.head?, cmpItem (s.fi.entry a) p (name item) = .lt) →
    s.report cb (.old a p) = .ok s' → s.fi.walkFileindex a = next →
    s'.fi.walkFileindex a = next → diff (fuel + 1) items p (some a) s = diff fuel items p next s'
  oldNew : ∀ fuel item items p a s s', gotPathIsChild (s.fi.entry a).path (relPath p) = true →
    cmpItem (s.fi.entry a) p (name item) = .eq →
    s.reportIf (!skip item) cb (.oldNew a item p) = .ok s' →
    diff (fuel + 1) (item :: items) p (some a) s
      = walkBelow name openBelow (diff fuel) item p (s'.fi.walkFileindex a) s'
          >>= fun (ie, s) => diff fuel items p ie s
  new : ∀ fuel item items p a s s', cmpItem (s.fi.entry a) p (name item) = .gt →
    s.report cb (.new item p) = .ok s' →
    diff (fuel + 1) (item :: items) p (some a) s
      = walkBelow name openBelow (diff fuel) item p (some a) s'
          >>= fun (ie, s) => diff fuel items p ie s
  newAlone : ∀ fuel item items p s s', s.reportIf (!skip item) cb (.new item p) = .ok s' →
    diff (fuel + 1) (item :: items) p none s
      = walkBelow name openBelow (diff fuel) item p none s'
          >>= fun (ie, s) => diff fuel items p ie s

end Loop

/-- **A report as what is met** when lists are joined, with the path of the item. -/
def DiffReport.joined (name : δ → Name) : DiffReport δ → Joined ℕ (List Name × δ)
  | .oldNew ie item p => .both ie (p ++ [name item], item)
  | .old ie _ => .left ie
  | .new item p => .right (p ++ [name item], item)

/-! ## The state of the walk -/

/-- Entries are in the order of the names that their paths are made of, if these
fit into the bits for their length. -/
theorem Fileindex.Ordered.names_lt {fi : Fileindex} {a b : ℕ} {p q : List Name} (h : fi.Ordered)
    (ha : (fi.entry a).path = relPath p) (hb : (fi.entry b).path = relPath q)
    (hp : (relPath p).length ≤ MAX_PATH_LEN) (hq : (relPath q).length ≤ MAX_PATH_LEN)
    (hlt : fi.key a < fi.key b) : p < q := by
  have hcmp : gotFileindexCmp (fi.entry a) (fi.entry b) = .lt := by
    rw [gotFileindexCmp_eq (isEntry_entry h.isEntry a) (isEntry_entry h.isEntry b)]
    exact linCmp_eq_lt_iff.mpr hlt
  rw [gotFileindexCmp, (isEntry_entry h.isEntry a).pathLen_eq,
    (isEntry_entry h.isEntry b).pathLen_eq,
    ha, hb, Nat.min_eq_left hp, Nat.min_eq_left hq, gotPathCmpLen_length] at hcmp
  exact linCmp_eq_lt_iff.mp ((gotPathCmp_canonicalPath false false p q).symm.trans hcmp)

/-- **The walk is at some entries**, whose paths are made of names, and fit. -/
structure OnWalk (names : ℕ → List Name) (s : WalkState δ) (w : List ℕ) : Prop where
  ordered : s.fi.Ordered
  coming : s.fi.Coming w
  path_eq : ∀ a ∈ w, (s.fi.entry a).path = relPath (names a)
  short : ∀ a ∈ w, (relPath (names a)).length ≤ MAX_PATH_LEN

namespace OnWalk

variable {names : ℕ → List Name} {s s' : WalkState δ} {w v : List ℕ} {a : ℕ} {cb : DiffCb δ}

theorem next (h : OnWalk names s (a :: w)) :
    s.fi.walkFileindex a = w.head? ∧ OnWalk names s w := by
  obtain ⟨hnext, hcoming⟩ := h.coming.next h.ordered
  exact ⟨hnext, h.ordered, hcoming, fun b hb => h.path_eq b (List.mem_cons_of_mem a hb),
    fun b hb => h.short b (List.mem_cons_of_mem a hb)⟩

/-- **Reporting something** that is not coming any more does not disturb the
walk. -/
theorem report (h : OnWalk names s w) (hcb : ∀ rs r fi, ∃ ops, cb rs r fi = .ok ops)
    {r : DiffReport δ} (hr : ∀ a ∈ r.entry?, w.head? = some a) :
    ∃ s', s.report cb r = .ok s' ∧ OnWalk names s' w ∧ s'.reported = s.reported ++ [r] := by
  obtain ⟨ops, hops⟩ := hcb s.reported r s.fi
  have hmem : ∀ a ∈ r.entry?, a ∈ s.fi.entries := fun a ha =>
    h.coming.mem a (List.mem_of_mem_head? (hr a ha))
  have hu := Fileindex.undisturbed_foldl h.ordered hmem ops
  refine ⟨_, by rw [WalkState.report, hops, ok_bind]; rfl, ⟨hu.ordered,
    h.coming.undisturbed h.ordered hu hr, fun a ha => ?_, h.short⟩, rfl⟩
  exact (hu.path_eq a (h.coming.mem a ha)).trans (h.path_eq a ha)

/-- A report is made or not, and the walk is where it was. -/
theorem reportIf (h : OnWalk names s w) (hcb : ∀ rs r fi, ∃ ops, cb rs r fi = .ok ops) (b : Bool)
    {r : DiffReport δ} (hr : ∀ a ∈ r.entry?, w.head? = some a) :
    ∃ s', s.reportIf b cb r = .ok s' ∧ OnWalk names s' w
      ∧ s'.reported = s.reported ++ if b then [r] else [] := by
  cases b with
  | false => exact ⟨s, rfl, h, (List.append_nil _).symm⟩
  | true => exact h.report hcb hr

theorem pathLen_eq (h : OnWalk names s w) (ha : a ∈ w) :
    (s.fi.entry a).pathLen = (s.fi.entry a).path.length := by
  rw [(Fileindex.isEntry_entry h.ordered.isEntry a).pathLen_eq, h.path_eq a ha]
  exact Nat.min_eq_left (h.short a ha)

/-- An entry of the index and an item are compared as their paths are. -/
theorem cmpItem_eq (h : OnWalk names s w) (ha : a ∈ w) (p : List Name) (n : Name) :
    cmpItem (s.fi.entry a) p n = linCmp (names a) (p ++ [n]) := by
  have hitem : relPath p ++ '/' :: n.val = canonicalPath (p = []) (p ++ [n]) := by
    cases p with
    | nil => exact (List.append_nil ('/' :: n.val)).symm
    | cons m p =>
      show _ = relPath (m :: (p ++ [n]))
      rw [relPath, relPath, slashed_append, List.append_assoc]
      exact congrArg _ (congrArg _ (List.append_nil ('/' :: n.val)).symm)
  rw [cmpItem, h.pathLen_eq ha, gotPathCmpLen_length, h.path_eq a ha, hitem]
  exact gotPathCmp_canonicalPath false _ (names a) (p ++ [n])

theorem child_eq (h : OnWalk names s w) (ha : a ∈ w) (p : List Name) :
    gotPathIsChild (s.fi.entry a).path (relPath p) = isBelow p (names a) := by
  rw [h.path_eq a ha, isBelow]

/-- What is coming is in the order of paths. -/
theorem inOrder (h : OnWalk names s w) : w.Pairwise (fun a b => names a < names b) :=
  List.Pairwise.imp_of_mem (fun {a b} ha hb hlt => h.ordered.names_lt (h.path_eq a ha)
    (h.path_eq b hb) (h.short a ha) (h.short b hb) hlt) (h.coming.inOrder h.ordered)

theorem dropWhile (h : OnWalk names s w) (p : ℕ → Bool) : OnWalk names s (w.dropWhile p) where
  ordered := h.ordered
  coming := h.coming.dropWhile h.ordered p
  path_eq a ha := h.path_eq a ((List.dropWhile_sublist p).mem ha)
  short a ha := h.short a ((List.dropWhile_sublist p).mem ha)

end OnWalk

/-! ## What is reported -/

/-- Whether an entry is below a path. -/
def under (names : ℕ → List Name) (p : List Name) (a : ℕ) : Bool := isBelow p (names a)

section Spec

variable (name : δ → Name) (skip : δ → Bool) (names : ℕ → List Name) (more : List Name → Bool)

/-- What is met among the entries that are below a path. -/
def met (p : List Name) (w : List ℕ) (items : List (List Name × δ)) :
    List (Joined ℕ (List Name × δ)) :=
  (join names Prod.fst (w.takeWhile (under names p)) items).filter
    (isMet (fun x => skip x.2) more Prod.fst)

/-- **The comparison has been made** of what is below a path: it is reported,
and the walk is at what comes after it. -/
def Merged (p : List Name) (w : List ℕ) (items : List (List Name × δ)) (s : WalkState δ)
    (result : Except GotErr (Option ℕ × WalkState δ)) : Prop :=
  ∃ s', result = .ok ((w.dropWhile (under names p)).head?, s')
    ∧ OnWalk names s' (w.dropWhile (under names p))
    ∧ s'.reported.map (DiffReport.joined name)
        = s.reported.map (DiffReport.joined name) ++ met skip names more p w items

variable {name skip names more} {p : List Name} {w : List ℕ} {a : ℕ} {s s' : WalkState δ}
  {items : List (List Name × δ)} {result : Except GotErr (Option ℕ × WalkState δ)}

/-- Something was reported before. -/
theorem Merged.report {w' : List ℕ} {items' : List (List Name × δ)}
    (h : Merged name skip names more p w' items' s' result)
    (hdrop : w.dropWhile (under names p) = w'.dropWhile (under names p))
    (hreported : s'.reported.map (DiffReport.joined name) ++ met skip names more p w' items'
      = s.reported.map (DiffReport.joined name) ++ met skip names more p w items) :
    Merged name skip names more p w items s result := by
  obtain ⟨s'', hok, hwalk, heq⟩ := h
  rw [← hdrop] at hok hwalk
  exact ⟨s'', hok, hwalk, heq.trans hreported⟩

/-- An entry that is alone. -/
theorem met_old (hbelow : under names p a) (hlt : ∀ x ∈ items, names a < x.1) :
    met skip names more p (a :: w) items = .left a :: met skip names more p w items := by
  rw [met, List.takeWhile_cons_of_pos hbelow, join_cons_left hlt, List.filter_cons_of_pos rfl]
  rfl

/-- An entry and an item. -/
theorem met_oldNew {x : List Name × δ} (hbelow : under names p a) (heq : names a = x.1) :
    met skip names more p (a :: w) (x :: items)
      = (if skip x.2 then [] else [.both a x]) ++ met skip names more p w items := by
  rw [met, List.takeWhile_cons_of_pos hbelow, join_of_eq heq, List.filter_cons]
  cases hskip : skip x.2 <;> simp [isMet, hskip, met]

/-- An item that is alone. -/
theorem met_new {x : List Name × δ} (hlt : ∀ a ∈ w, x.1 < names a) :
    met skip names more p w (x :: items)
      = (if skip x.2 && !more x.1 then [] else [.right x]) ++ met skip names more p w items := by
  have hlt' : ∀ a ∈ w.takeWhile (under names p), x.1 < names a := fun a ha =>
    hlt a ((List.takeWhile_sublist _).mem ha)
  rw [met, join_cons_right hlt', List.filter_cons]
  cases hskip : skip x.2 <;> cases hmore : more x.1 <;> simp [isMet, hskip, hmore, met]

/-- **What is below an item comes first.** -/
theorem met_append {q : List Name} {below next : List (List Name × δ)}
    (hqp : ∀ a, under names q a → under names p a)
    (hnext : ∀ a ∈ w, under names q a → ∀ x ∈ next, names a < x.1)
    (hbelow : ∀ x ∈ below, ∀ a ∈ w.dropWhile (under names q), x.1 < names a) :
    met skip names more p w (below ++ next)
      = met skip names more q w below
        ++ met skip names more p (w.dropWhile (under names q)) next := by
  rw [met, met, met, takeWhile_of_imp hqp, join_append (fun a ha x hx => ?_) (fun x hx a ha => ?_),
    List.filter_append]
  · exact hnext a ((List.takeWhile_sublist _).mem ha) (List.mem_takeWhile_imp ha) x hx
  · exact hbelow x hx a ((List.takeWhile_sublist _).mem ha)

/-- **What is to be shown** of the loop over the items of a listing. -/
def SpecFor (openBelow : List Name → δ → Except GotErr (Option (List δ))) (diff : ℕ → DiffLoop δ)
    (name : δ → Name) (skip : δ → Bool) (names : ℕ → List Name) (more : List Name → Bool)
    (t : Listing δ) : Prop :=
  ∀ p items w s fuel, t.Opens name openBelow p items → OnWalk names s w →
    (p = [] ∨ ∀ a ∈ w, p < names a) → w.length + t.size < fuel →
    (∀ x ∈ t.flat name p, more x.1 ↔ ∃ a ∈ w, x.1 < names a) →
    Merged name skip names more p w (t.flat name p) s (diff fuel items p w.head? s)

variable {openBelow : List Name → δ → Except GotErr (Option (List δ))} {diff : ℕ → DiffLoop δ}
  {cb : DiffCb δ}

/-- Entries that are left out do not count for what is after them. -/
theorem more_of_le {w' : List ℕ} {x : List Name} (hsub : ∀ b ∈ w', b ∈ w)
    (hle : ∀ b ∈ w, b ∈ w' ∨ names b ≤ x) (h : more x ↔ ∃ b ∈ w, x < names b) :
    more x ↔ ∃ b ∈ w', x < names b := by
  rw [h]
  constructor
  · rintro ⟨b, hb, hlt⟩
    rcases hle b hb with hb' | hge
    · exact ⟨b, hb', hlt⟩
    · exact absurd hlt (not_lt_of_ge hge)
  · rintro ⟨b, hb, hlt⟩
    exact ⟨b, hsub b hb, hlt⟩

/-- The entries that are left when those below a path are taken away come after
all that is below it. -/
theorem lt_of_mem_dropWhile {α : Type} {key : α → List Name} {l : List α} {b : α}
    {q s : List Name} {n : Name} (hl : l.Pairwise (fun a b => key a < key b))
    (hq : ∀ a ∈ l, q < key a) (hb : b ∈ l.dropWhile (fun a => isBelow q (key a))) :
    q ++ n :: s < key b := by
  induction l with
  | nil => exact absurd hb List.not_mem_nil
  | cons a l ih =>
    obtain ⟨ha, hl⟩ := List.pairwise_cons.mp hl
    by_cases hbelow : isBelow q (key a)
    · rw [List.dropWhile_cons, if_pos hbelow] at hb
      exact ih hl (fun a' ha' => hq a' (List.mem_cons_of_mem a ha')) hb
    · rw [List.dropWhile_cons, if_neg hbelow] at hb
      have hlt : q ++ n :: s < key a := lt_of_not_isBelow (hq a List.mem_cons_self)
        (eq_false_of_ne_true hbelow) ⟨n, s, rfl⟩
      rcases List.mem_cons.mp hb with rfl | hb
      · exact hlt
      · exact hlt.trans (ha b hb)

theorem mem_takeWhile_or_dropWhile {f : ℕ → Bool} (ha : a ∈ w) :
    f a = true ∨ a ∈ w.dropWhile f := by
  rw [← List.takeWhile_append_dropWhile (p := f) (l := w)] at ha
  exact (List.mem_append.mp ha).imp_left List.mem_takeWhile_imp

/-- **Going down into an item**, and on with the items after it. -/
theorem merged_walkBelow {item : δ} {below next : Listing δ} {rest : List δ} {fuel : ℕ}
    (hbelow : SpecFor openBelow diff name skip names more below)
    (hnext : SpecFor openBelow diff name skip names more next)
    (hroots : ∀ r ∈ next.roots, name item < name r)
    (hopens : openBelow p item = .ok none ∧ below = .nil
      ∨ ∃ sub, openBelow p item = .ok (some sub)
        ∧ below.Opens name openBelow (p ++ [name item]) sub)
    (hrest : next.Opens name openBelow p rest) (hw : OnWalk names s w)
    (hafter : ∀ a ∈ w, p ++ [name item] < names a)
    (hfuel : w.length + below.size < fuel ∧ w.length + next.size < fuel)
    (hmore : ∀ x ∈ below.flat name (p ++ [name item]) ++ next.flat name p,
      more x.1 ↔ ∃ a ∈ w, x.1 < names a) :
    Merged name skip names more p w (below.flat name (p ++ [name item]) ++ next.flat name p) s
      (walkBelow name openBelow (diff fuel) item p w.head? s
        >>= fun (ie, s) => diff fuel rest p ie s) := by
  have hp : p = [] ∨ ∀ a ∈ w, p < names a := Or.inr fun a ha =>
    (lt_append_of_ne_nil p (List.cons_ne_nil (name item) [])).trans (hafter a ha)
  rcases hopens with ⟨hopen, rfl⟩ | ⟨sub, hopen, hsub⟩
  · rw [walkBelow, hopen, ok_bind]
    exact hnext p rest w s fuel hrest hw hp hfuel.2 hmore
  · have hunder : ∀ a, under names (p ++ [name item]) a → under names p a := by
      intro a ha
      obtain h | ⟨n, s, h⟩ := isBelow_iff.mp ha
      · exact absurd h (List.append_ne_nil_of_right_ne_nil p (List.cons_ne_nil _ _))
      · exact isBelow_iff.mpr (Or.inr ⟨name item, n :: s, by rw [h, List.append_assoc]; rfl⟩)
    -- what is below the item comes before the items after it
    have hlt : ∀ a ∈ w, under names (p ++ [name item]) a → ∀ x ∈ next.flat name p,
        names a < x.1 := by
      intro a _ ha x hx
      obtain h | ⟨n, s, h⟩ := isBelow_iff.mp ha
      · exact absurd h (List.append_ne_nil_of_right_ne_nil p (List.cons_ne_nil _ _))
      · exact Listing.lt_of_mem_flat hroots (h.trans (List.append_assoc _ _ _)) hx
    have hgt : ∀ x ∈ below.flat name (p ++ [name item]),
        ∀ a ∈ w.dropWhile (under names (p ++ [name item])), x.1 < names a := by
      intro x hx a ha
      obtain ⟨r, -, s, hs⟩ := Listing.path_of_mem_flat hx
      exact hs ▸ lt_of_mem_dropWhile hw.inOrder hafter ha
    obtain ⟨s₁, hok₁, hw₁, hreported₁⟩ := hbelow (p ++ [name item]) sub w s fuel hsub hw
      (Or.inr hafter) hfuel.1 fun x hx => hmore x (List.mem_append_left _ hx)
    have hlen := (List.dropWhile_sublist (under names (p ++ [name item])) (l := w)).length_le
    obtain ⟨s₂, hok₂, hw₂, hreported₂⟩ := hnext p rest
      (w.dropWhile (under names (p ++ [name item]))) s₁ fuel hrest hw₁
      (hp.imp_right fun h a ha => h a ((List.dropWhile_sublist _).mem ha))
      (by omega) fun x hx => more_of_le (fun b hb => (List.dropWhile_sublist _).mem hb)
        (fun b hb => (mem_takeWhile_or_dropWhile hb).symm.imp_right fun h =>
          le_of_lt (hlt b hb h x hx)) (hmore x (List.mem_append_right _ hx))
    rw [dropWhile_of_imp hunder] at hok₂ hw₂
    refine ⟨s₂, ?_, hw₂, ?_⟩
    · rw [walkBelow, hopen, ok_bind]
      show (diff fuel sub (p ++ [name item]) w.head? s >>= _) = _
      rw [hok₁, ok_bind]
      exact hok₂
    · rw [hreported₂, hreported₁, List.append_assoc, met_append hunder hlt hgt]

variable (hwalk : MergeWalk cb name skip openBelow diff)
  (hcb : ∀ rs r fi, ∃ ops, cb rs r fi = .ok ops)

include hwalk hcb

/-- An entry that is alone is reported, and the loop goes on after it. -/
theorem MergeWalk.merged_old {rest : List δ} {fuel : ℕ} (hw : OnWalk names s (a :: w))
    (hbelow : under names p a) (hcmp : ∀ item ∈ rest.head?, names a < p ++ [name item])
    (hlt : ∀ x ∈ items, names a < x.1)
    (hnext : ∀ s', OnWalk names s' w →
      Merged name skip names more p w items s' (diff fuel rest p w.head? s')) :
    Merged name skip names more p (a :: w) items s (diff (fuel + 1) rest p (some a) s) := by
  obtain ⟨s', hok, hw', hreported⟩ := hw.report hcb (r := .old a p) fun b hb => hb
  have hchild : gotPathIsChild (s.fi.entry a).path (relPath p) = true :=
    (hw.child_eq List.mem_cons_self p).trans hbelow
  rw [hwalk.old fuel rest p a w.head? s s' hchild
    (fun item hitem => (hw.cmpItem_eq List.mem_cons_self p (name item)).trans
      (linCmp_eq_lt_iff.mpr (hcmp item hitem))) hok hw.next.1 hw'.next.1]
  refine (hnext s' hw'.next.2).report (List.dropWhile_cons_of_pos hbelow) ?_
  rw [hreported, met_old hbelow hlt, List.map_append, List.append_assoc]
  rfl

/-- **The comparison is made**, whatever is nested in what. The induction is on
the listing, and for each of its items on the entries that are coming. -/
theorem MergeWalk.spec {t : Listing δ} (ht : t.Sorted name) :
    SpecFor openBelow diff name skip names more t := by
  induction t with
  | nil =>
    rintro p items w s fuel rfl hw hp hfuel hmore
    induction w generalizing s fuel with
    | nil =>
      obtain ⟨fuel, rfl⟩ : ∃ n, fuel = n + 1 := ⟨fuel - 1, by omega⟩
      refine ⟨s, hwalk.done fuel p s, hw, ?_⟩
      rw [met, List.takeWhile_nil, join_nil_left]
      exact (List.append_nil _).symm
    | cons a w ih =>
      obtain ⟨fuel, rfl⟩ : ∃ n, fuel = n + 1 := ⟨fuel - 1, by omega⟩
      by_cases hbelow : under names p a
      · refine hwalk.merged_old hcb hw hbelow (fun _ h => nomatch h) (fun _ h => nomatch h)
          fun s' hw' => ih s' fuel hw' (hp.imp_right fun h b hb => h b (List.mem_cons_of_mem a hb))
            ?_ (fun _ h => nomatch h)
        rw [List.length_cons] at hfuel
        omega
      · have hchild := (hw.child_eq List.mem_cons_self p).trans (eq_false_of_ne_true hbelow)
        refine ⟨s, ?_, ?_, ?_⟩
        · rw [List.dropWhile_cons_of_neg hbelow]
          exact hwalk.done_of_not_child fuel p a s hchild
        · rwa [List.dropWhile_cons_of_neg hbelow]
        · rw [met, List.takeWhile_cons_of_neg hbelow, join_nil_left]
          exact (List.append_nil _).symm
  | cons item below next ihb ihn =>
    rintro p _ w s fuel ⟨rest, rfl, hrest, hopens⟩ hw hp hfuel hmore
    obtain ⟨hroots, hbelow, hnext⟩ := ht
    have hgo := fun {w} {s : WalkState δ} {fuel : ℕ} =>
      @merged_walkBelow δ name skip names more p w s
      openBelow diff item below next rest fuel (ihb hbelow) (ihn hnext) hroots hopens hrest
    -- the items with their paths come after the one that is at hand
    have hgt : ∀ x ∈ below.flat name (p ++ [name item]) ++ next.flat name p,
        p ++ [name item] < x.1 := by
      have hsorted := Listing.Sorted.flat (p := p)
        (show Listing.Sorted name (.cons item below next) from
        ⟨hroots, hbelow, hnext⟩)
      exact (List.pairwise_cons.mp hsorted).1
    have hsize : (Listing.cons item below next).size = below.size + next.size + 1 := rfl
    induction w generalizing s fuel with
    | nil =>
      obtain ⟨fuel, rfl⟩ : ∃ n, fuel = n + 1 := ⟨fuel - 1, by omega⟩
      have hnone : more (p ++ [name item]) = false := eq_false_of_ne_true fun h => by
        obtain ⟨b, hb, -⟩ := (hmore _ List.mem_cons_self).mp h
        exact nomatch hb
      obtain ⟨s', hok, hw', hreported⟩ := hw.reportIf hcb (!skip item) (r := .new item p)
        fun b hb => nomatch hb
      rw [List.head?_nil, hwalk.newAlone fuel item rest p s s' hok]
      refine (hgo hw' (fun _ h => absurd h List.not_mem_nil) ⟨by omega, by omega⟩
        fun x hx => hmore x (List.mem_cons_of_mem _ hx)).report rfl ?_
      rw [Listing.flat, met_new (fun _ h => absurd h List.not_mem_nil), hreported, hnone,
        Bool.not_false, Bool.and_true]
      cases skip item <;> simp [DiffReport.joined]
    | cons a w ih =>
      obtain ⟨fuel, rfl⟩ : ∃ n, fuel = n + 1 := ⟨fuel - 1, by omega⟩
      rw [List.length_cons] at hfuel
      have hafter := (List.pairwise_cons.mp hw.inOrder).1
      rcases lt_trichotomy (names a) (p ++ [name item]) with hlt | heq | hlt
      · have hbelow := isBelow_of_lt (hp.imp_right fun h => h a List.mem_cons_self) hlt
        have hall : ∀ x ∈ Listing.flat name p (.cons item below next), names a < x.1 := by
          intro x hx
          rcases List.mem_cons.mp hx with rfl | hx
          · exact hlt
          · exact hlt.trans (hgt x hx)
        refine hwalk.merged_old hcb hw hbelow (fun _ h => Option.some.inj h ▸ hlt) hall
          fun s' hw' => ih s' fuel hw' (hp.imp_right fun h b hb => h b (List.mem_cons_of_mem a hb))
            (by omega) fun x hx => ?_
        exact more_of_le (fun b hb => List.mem_cons_of_mem a hb) (fun b hb => by
          rcases List.mem_cons.mp hb with rfl | hb
          · exact Or.inr (hall x hx).le
          · exact Or.inl hb) (hmore x hx)
      · have hbelow : under names p a := isBelow_iff.mpr (Or.inr ⟨name item, [], heq⟩)
        obtain ⟨s', hok, hw', hreported⟩ := hw.reportIf hcb (!skip item) (r := .oldNew a item p)
          fun b hb => hb
        have hchild : gotPathIsChild (s.fi.entry a).path (relPath p) = true :=
          (hw.child_eq List.mem_cons_self p).trans hbelow
        have hcmp := (hw.cmpItem_eq List.mem_cons_self p (name item)).trans
          (linCmp_eq_eq_iff.mpr heq)
        rw [List.head?_cons, hwalk.oldNew fuel item rest p a s s' hchild hcmp hok, hw'.next.1]
        refine (hgo hw'.next.2 (fun b hb => heq ▸ hafter b hb) ⟨by omega, by omega⟩
          fun x hx => ?_).report
          (List.dropWhile_cons_of_pos hbelow) ?_
        · exact more_of_le (fun b hb => List.mem_cons_of_mem a hb) (fun b hb => by
            rcases List.mem_cons.mp hb with rfl | hb
            · exact Or.inr (heq ▸ (hgt x hx).le)
            · exact Or.inl hb) (hmore x (List.mem_cons_of_mem _ hx))
        · rw [Listing.flat, met_oldNew hbelow heq, hreported]
          cases skip item <;> simp [DiffReport.joined]
      · have hsome : more (p ++ [name item]) = true :=
          (hmore _ List.mem_cons_self).mpr ⟨a, List.mem_cons_self, hlt⟩
        have hall : ∀ b ∈ a :: w, p ++ [name item] < names b := by
          intro b hb
          rcases List.mem_cons.mp hb with rfl | hb
          · exact hlt
          · exact hlt.trans (hafter b hb)
        obtain ⟨s', hok, hw', hreported⟩ := hw.report hcb (r := .new item p) fun b hb => nomatch hb
        have hcmp := (hw.cmpItem_eq List.mem_cons_self p (name item)).trans
          (linCmp_eq_gt_iff.mpr hlt)
        rw [List.head?_cons, hwalk.new fuel item rest p a s s' hcmp hok]
        refine (hgo hw' hall ⟨by rw [List.length_cons]; omega, by rw [List.length_cons]; omega⟩
          fun x hx => hmore x (List.mem_cons_of_mem _ hx)).report rfl ?_
        rw [Listing.flat, met_new hall, hreported, hsome]
        simp [DiffReport.joined]

end Spec

end Got

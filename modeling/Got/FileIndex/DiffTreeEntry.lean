import Got.FileIndex.DiffTree

/-!
# Comparing the file index with one entry of a tree

If a file is to be updated and not a directory, the comparison of the file index with a tree
is given the name of its entry. It walks as it does otherwise, and asks before each report
whether the entry of the tree that is at hand has this name. So what it asks is a matter of
what is at hand: an entry of the index that is met alone is reported under the name of the
entry of the tree before which it comes. The loop ends with the first report, but those of
the directories above go on.

`visit` is this walk on lists, without a state, and `diffFileindexTreeEntry_eq` shows that
the loop does what it says, whatever the callbacks do to the index. Without a name, the loop
is the comparison with all of the tree (`diffFileindexTreeEntry_none`).
-/

namespace Got

section Loop

variable (cb : DiffCb TreeEntry) (entryName : Option Name)

/-- Whether an entry of a tree is asked for: `entry_name == NULL || strcmp(…) == 0`. -/
def isAskedFor (te : TreeEntry) : Bool :=
  decide (entryName = none) || decide (entryName = some te.name)

/-- **`diff_fileindex_tree`**, which is given the name of an entry or not. -/
def diffFileindexTreeEntry : ℕ → DiffLoop TreeEntry
  | 0, _, _, _, _ => .error .fuel
  | fuel + 1, te :: tree, path, some ie, s =>
    match cmpItem (s.fi.entry ie) path te.name with
    | .eq => do
      let report := gotPathIsChild (s.fi.entry ie).path (relPath path) && !te.isSubmodule
        && isAskedFor entryName te
      let s ← s.reportIf report cb (.oldNew ie te path)
      if report && entryName.isSome then .ok (some ie, s)
      else do
        let (ie, s) ← walkTree (diffFileindexTreeEntry fuel) te path (s.fi.walkFileindex ie) s
        diffFileindexTreeEntry fuel tree path ie s
    | .lt => do
      let next := s.fi.walkFileindex ie
      -- the name that is compared is that of the entry of the tree
      let report := gotPathIsChild (s.fi.entry ie).path (relPath path) && isAskedFor entryName te
      let s ← s.reportIf report cb (.old ie path)
      if report && entryName.isSome then .ok (some ie, s)
      else diffFileindexTreeEntry fuel (te :: tree) path next s
    | .gt => do
      let report := isAskedFor entryName te
      let s ← s.reportIf report cb (.new te path)
      if report && entryName.isSome then .ok (some ie, s)
      else do
        let (ie, s) ← walkTree (diffFileindexTreeEntry fuel) te path (some ie) s
        diffFileindexTreeEntry fuel tree path ie s
  | fuel + 1, [], path, some ie, s =>
    if gotPathIsChild (s.fi.entry ie).path (relPath path) then do
      let next := s.fi.walkFileindex ie
      -- there is no entry of the tree whose name could be compared
      let s ← s.reportIf entryName.isNone cb (.old ie path)
      diffFileindexTreeEntry fuel [] path next s
    else .ok (some ie, s)
  | fuel + 1, te :: tree, path, none, s => do
    let report := !te.isSubmodule && isAskedFor entryName te
    let s ← s.reportIf report cb (.new te path)
    if report && entryName.isSome then .ok (none, s)
    else do
      let (ie, s) ← walkTree (diffFileindexTreeEntry fuel) te path none s
      diffFileindexTreeEntry fuel tree path ie s
  | _ + 1, [], _, none, s => .ok (none, s)

/-- **`got_fileindex_diff_tree`** -/
def gotFileindexDiffTreeEntry (fuel : ℕ) (fi : Fileindex) (tree : List TreeEntry)
    (path : List Name) : Except GotErr (WalkState TreeEntry) := do
  let (_, s) ← diffFileindexTreeEntry cb entryName fuel tree path (fi.walkStart (relPath path))
    ⟨fi, []⟩
  return s

end Loop

section

variable {cb : DiffCb TreeEntry} {names : ℕ → List Name} {e : Name} {te : TreeEntry}
  {p : List Name} {w : List ℕ} {a : ℕ} {s : WalkState TreeEntry}

theorem isAskedFor_none : isAskedFor none te = true := rfl

theorem isAskedFor_some : isAskedFor (some e) te = true ↔ te.name = e := by
  unfold isAskedFor
  rw [decide_eq_false (Option.some_ne_none e), Bool.false_or, decide_eq_true_eq, Option.some.injEq]
  exact eq_comm

/-- **Without a name all is compared.** -/
theorem diffFileindexTreeEntry_none (fuel : ℕ) (tree : List TreeEntry) (path : List Name)
    (ie : Option ℕ) (s : WalkState TreeEntry) :
    diffFileindexTreeEntry cb none fuel tree path ie s
      = diffFileindexTree cb fuel tree path ie s := by
  induction fuel generalizing tree path ie s with
  | zero => rfl
  | succ fuel ih =>
    have hloop : diffFileindexTreeEntry cb none fuel = diffFileindexTree cb fuel :=
      funext fun tree => funext fun path => funext fun ie => funext fun s => ih tree path ie s
    cases tree with
    | nil =>
      cases ie with
      | none => rfl
      | some ie =>
        rw [diffFileindexTreeEntry, diffFileindexTree, hloop]
        rfl
    | cons te tree =>
      cases ie with
      | none =>
        rw [diffFileindexTreeEntry, diffFileindexTree, hloop]
        simp [isAskedFor_none]
      | some ie =>
        rw [diffFileindexTreeEntry, diffFileindexTree, hloop]
        cases cmpItem (s.fi.entry ie) path te.name <;> simp [isAskedFor_none, WalkState.reportIf]

/-! ## The walk on lists -/

/-- Whether there is something below an entry of a tree. -/
def isOpened (te : TreeEntry) : Bool := !te.isSubmodule && decide (S_ISDIR te.mode)

variable (e names) in
/-- **The walk on lists**: what is reported, and the entries of the index that are left. -/
def visit : List Name → Listing TreeEntry → List ℕ → List (DiffReport TreeEntry) × List ℕ
  | p, .nil, w => ([], w.dropWhile (under names p))
  | p, .cons te below next, w =>
    if te.name = e then
      match w with
      | [] => if te.isSubmodule then visit p next [] else ([.new te p], [])
      | a :: w =>
        if names a < p ++ [te.name] then ([.old a p], a :: w)
        else if p ++ [te.name] < names a then ([.new te p], a :: w)
        else if te.isSubmodule then visit p next w
        else ([.oldNew a te p], a :: w)
    else
      let ahead := w.dropWhile (fun a => names a ≤ p ++ [te.name])
      let inside := if isOpened te then visit (p ++ [te.name]) below ahead else ([], ahead)
      let rest := visit p next inside.2
      (inside.1 ++ rest.1, rest.2)

/-- One item of a tree that is no entry of its own name: what is met below it, then what comes
after. -/
theorem visit_of_ne (h : te.name ≠ e) (below next : Listing TreeEntry) :
    visit names e p (.cons te below next) w
      = ((if isOpened te then
            visit names e (p ++ [te.name]) below (w.dropWhile (fun a => names a ≤ p ++ [te.name]))
          else ([], w.dropWhile (fun a => names a ≤ p ++ [te.name]))).1
          ++ (visit names e p next (if isOpened te then
            visit names e (p ++ [te.name]) below (w.dropWhile (fun a => names a ≤ p ++ [te.name]))
          else ([], w.dropWhile (fun a => names a ≤ p ++ [te.name]))).2).1,
        (visit names e p next (if isOpened te then
            visit names e (p ++ [te.name]) below (w.dropWhile (fun a => names a ≤ p ++ [te.name]))
          else ([], w.dropWhile (fun a => names a ≤ p ++ [te.name]))).2).2) := by
  cases w <;> rw [visit, if_neg h]

/-- Entries of the index are left as they come. -/
theorem visit_sublist (t : Listing TreeEntry) (p : List Name) (w : List ℕ) :
    (visit names e p t w).2.Sublist w := by
  induction t generalizing p w with
  | nil => exact List.dropWhile_sublist _
  | cons te below next ihb ihn =>
    by_cases hte : te.name = e
    · cases w with
      | nil =>
        rw [visit, if_pos hte]
        split
        · exact ihn p []
        · exact List.Sublist.refl _
      | cons a w =>
        rw [visit, if_pos hte]
        split
        · exact List.Sublist.refl _
        split
        · exact List.Sublist.refl _
        split
        · exact (ihn p w).trans (List.sublist_cons_self a w)
        · exact List.Sublist.refl _
    · rw [visit_of_ne hte]
      refine (ihn p _).trans ?_
      split
      · exact (ihb _ _).trans (List.dropWhile_sublist _)
      · exact List.dropWhile_sublist _

end

/-! ## The loop does what the walk on lists does -/

section

variable {cb : DiffCb TreeEntry} {names : ℕ → List Name} {e : Name} {te : TreeEntry}
  {p : List Name} {w : List ℕ} {a : ℕ} {s : WalkState TreeEntry}

/-- **The loop does what the walk on lists says.** -/
def Visits (names : ℕ → List Name) (s : WalkState TreeEntry)
    (visited : List (DiffReport TreeEntry) × List ℕ)
    (result : Except GotErr (Option ℕ × WalkState TreeEntry)) : Prop :=
  ∃ s', result = .ok (visited.2.head?, s') ∧ OnWalk names s' visited.2
    ∧ s'.reported = s.reported ++ visited.1

/-- What is to be shown of the loop over a tree. -/
def VisitsFor (cb : DiffCb TreeEntry) (names : ℕ → List Name) (e : Name)
    (t : Listing TreeEntry) : Prop :=
  ∀ p items w s fuel, t.Opens TreeEntry.name openSubtree p items → OnWalk names s w →
    (p = [] ∨ ∀ a ∈ w, p < names a) → w.length + t.size < fuel →
    Visits names s (visit names e p t w)
      (diffFileindexTreeEntry cb (some e) fuel items p w.head? s)

theorem isOpened_eq_false (h : openSubtree p te = .ok none) : isOpened te = false := by
  unfold openSubtree at h
  split at h
  · cases hopen : gotObjectOpenAsTree te.id with
    | error err => rw [hopen] at h; cases h
    | ok tree => rw [hopen] at h; cases h
  · next hdir => simpa [isOpened] using hdir

theorem isOpened_eq_true {sub : List TreeEntry} (h : openSubtree p te = .ok (some sub)) :
    isOpened te = true := by
  unfold openSubtree at h
  split at h
  · next hdir => simpa [isOpened] using hdir
  · cases h

/-- **Going down into an entry**, and on with the entries after it. -/
theorem visits_walkTree {below next : Listing TreeEntry} {rest : List TreeEntry} {fuel : ℕ}
    (hbelow : VisitsFor cb names e below) (hnext : VisitsFor cb names e next)
    (hopens : openSubtree p te = .ok none ∧ below = .nil
      ∨ ∃ sub, openSubtree p te = .ok (some sub)
        ∧ below.Opens TreeEntry.name openSubtree (p ++ [te.name]) sub)
    (hrest : next.Opens TreeEntry.name openSubtree p rest) (hw : OnWalk names s w)
    (hafter : ∀ a ∈ w, p ++ [te.name] < names a)
    (hfuel : w.length + below.size < fuel ∧ w.length + next.size < fuel) :
    Visits names s
      ((if isOpened te then visit names e (p ++ [te.name]) below w else ([], w)).1
          ++ (visit names e p next
            (if isOpened te then visit names e (p ++ [te.name]) below w else ([], w)).2).1,
        (visit names e p next
          (if isOpened te then visit names e (p ++ [te.name]) below w else ([], w)).2).2)
      (walkTree (diffFileindexTreeEntry cb (some e) fuel) te p w.head? s
        >>= fun r => diffFileindexTreeEntry cb (some e) fuel rest p r.1 r.2) := by
  have hp : p = [] ∨ ∀ a ∈ w, p < names a := Or.inr fun a ha =>
    (lt_append_of_ne_nil p (List.cons_ne_nil te.name [])).trans (hafter a ha)
  rw [← walkBelow_openSubtree]
  rcases hopens with ⟨hopen, rfl⟩ | ⟨sub, hopen, hsub⟩
  · rw [walkBelow, hopen, ok_bind, isOpened_eq_false hopen]
    exact hnext p rest w s fuel hrest hw hp hfuel.2
  · rw [walkBelow, hopen, ok_bind, isOpened_eq_true hopen, if_pos rfl]
    obtain ⟨s₁, hok₁, hw₁, hreported₁⟩ := hbelow (p ++ [te.name]) sub w s fuel hsub hw
      (Or.inr hafter) hfuel.1
    have hsublist : (visit names e (p ++ [te.name]) below w).2.Sublist w :=
      visit_sublist below (p ++ [te.name]) w
    obtain ⟨s₂, hok₂, hw₂, hreported₂⟩ := hnext p rest _ s₁ fuel hrest hw₁
      (hp.imp_right fun h a ha => h a (hsublist.mem ha))
      (Nat.lt_of_le_of_lt (Nat.add_le_add_right hsublist.length_le _) hfuel.2)
    refine ⟨s₂, ?_, hw₂, by rw [hreported₂, hreported₁, List.append_assoc]⟩
    show (diffFileindexTreeEntry cb (some e) fuel sub (p ++ [te.name]) w.head? s >>= _) = _
    rw [hok₁, ok_bind]
    exact hok₂

variable (hcb : ∀ rs r fi, ∃ ops, cb rs r fi = .ok ops)

include hcb

/-- **The loop is the walk on lists.** The induction is on what is below the path, and for
each entry of the tree on the entries of the index that are coming. -/
theorem visitsFor (t : Listing TreeEntry) : VisitsFor cb names e t := by
  induction t with
  | nil =>
    rintro p items w s fuel rfl hw hp hfuel
    induction w generalizing s fuel with
    | nil =>
      obtain ⟨fuel, rfl⟩ : ∃ n, fuel = n + 1 := ⟨fuel - 1, by omega⟩
      exact ⟨s, rfl, hw, (List.append_nil _).symm⟩
    | cons a w ih =>
      obtain ⟨fuel, rfl⟩ : ∃ n, fuel = n + 1 := ⟨fuel - 1, by omega⟩
      rw [List.length_cons] at hfuel
      have hchild : gotPathIsChild (s.fi.entry a).path (relPath p) = under names p a :=
        hw.child_eq List.mem_cons_self p
      rw [List.head?_cons, diffFileindexTreeEntry, hchild, visit]
      rw [visit] at ih
      by_cases hbelow : under names p a
      · rw [if_pos hbelow, List.dropWhile_cons_of_pos hbelow, hw.next.1]
        exact ih s fuel hw.next.2 (hp.imp_right fun h b hb => h b (List.mem_cons_of_mem a hb))
          (by omega)
      · rw [if_neg hbelow, List.dropWhile_cons_of_neg hbelow]
        exact ⟨s, rfl, hw, (List.append_nil _).symm⟩
  | cons te below next ihb ihn =>
    rintro p _ w s fuel ⟨rest, rfl, hrest, hopens⟩ hw hp hfuel
    have hsize : (Listing.cons te below next).size = below.size + next.size + 1 := rfl
    by_cases hte : te.name = e
    · -- what is asked for is at hand
      have hasked : isAskedFor (some e) te = true := isAskedFor_some.mpr hte
      obtain ⟨fuel, rfl⟩ : ∃ n, fuel = n + 1 := ⟨fuel - 1, by omega⟩
      cases w with
      | nil =>
        rw [visit, if_pos hte, List.head?_nil, diffFileindexTreeEntry]
        dsimp only
        rw [hasked, Bool.and_true]
        cases hsub : te.isSubmodule with
        | true =>
          rw [if_pos rfl]
          have hno : isOpened te = false := by rw [isOpened, hsub]; rfl
          have hfuel' : [].length + below.size < fuel ∧ [].length + next.size < fuel :=
            ⟨by omega, by omega⟩
          have h := visits_walkTree ihb ihn hopens hrest hw
            (fun a ha => absurd ha List.not_mem_nil) hfuel'
          rw [hno] at h
          exact h
        | false =>
          rw [if_neg Bool.false_ne_true]
          obtain ⟨s', hok, hw', hreported⟩ := hw.report hcb (r := .new te p)
            fun b hb => by cases hb
          refine ⟨s', ?_, hw', hreported⟩
          show (s.report cb (.new te p) >>= _) = _
          rw [hok, ok_bind]
          rfl
      | cons a w =>
        rw [List.length_cons] at hfuel
        have hcmp := hw.cmpItem_eq List.mem_cons_self p te.name
        have hchild := hw.child_eq List.mem_cons_self p
        have hafter := (List.pairwise_cons.mp hw.inOrder).1
        rw [visit, if_pos hte, List.head?_cons, diffFileindexTreeEntry, hcmp]
        rcases lt_trichotomy (names a) (p ++ [te.name]) with hlt | heq | hlt
        · have hbelow : isBelow p (names a) = true :=
            isBelow_of_lt (hp.imp_right fun h => h a List.mem_cons_self) hlt
          rw [linCmp_eq_lt_iff.mpr hlt, if_pos hlt]
          dsimp only
          rw [hasked, hchild, hbelow]
          obtain ⟨s', hok, hw', hreported⟩ := hw.report hcb (r := .old a p) fun b hb => hb
          refine ⟨s', ?_, hw', hreported⟩
          show (s.report cb (.old a p) >>= _) = _
          rw [hok, ok_bind]
          rfl
        · have hbelow : isBelow p (names a) = true :=
            isBelow_iff.mpr (Or.inr ⟨te.name, [], heq⟩)
          rw [linCmp_eq_eq_iff.mpr heq, if_neg (not_lt_of_ge heq.ge), if_neg (not_lt_of_ge heq.le)]
          dsimp only
          rw [hasked, hchild, hbelow, Bool.true_and, Bool.and_true]
          cases hsub : te.isSubmodule with
          | true =>
            rw [if_pos rfl]
            have hno : isOpened te = false := by rw [isOpened, hsub]; rfl
            have hfuel' : w.length + below.size < fuel ∧ w.length + next.size < fuel :=
              ⟨by omega, by omega⟩
            have h := visits_walkTree ihb ihn hopens hrest hw.next.2
              (fun b hb => heq ▸ hafter b hb) hfuel'
            rw [hno, ← hw.next.1] at h
            exact h
          | false =>
            rw [if_neg Bool.false_ne_true]
            obtain ⟨s', hok, hw', hreported⟩ := hw.report hcb (r := .oldNew a te p) fun b hb => hb
            refine ⟨s', ?_, hw', hreported⟩
            show (s.report cb (.oldNew a te p) >>= _) = _
            rw [hok, ok_bind]
            rfl
        · rw [linCmp_eq_gt_iff.mpr hlt, if_neg (lt_asymm hlt), if_pos hlt]
          dsimp only
          rw [hasked]
          obtain ⟨s', hok, hw', hreported⟩ := hw.report hcb (r := .new te p)
            fun b hb => by cases hb
          refine ⟨s', ?_, hw', hreported⟩
          show (s.report cb (.new te p) >>= _) = _
          rw [hok, ok_bind]
          rfl
    · -- something else is at hand: nothing is reported
      have hasked : isAskedFor (some e) te = false :=
        eq_false_of_ne_true fun h => hte (isAskedFor_some.mp h)
      rw [visit_of_ne hte]
      induction w generalizing s fuel with
      | nil =>
        obtain ⟨fuel, rfl⟩ : ∃ n, fuel = n + 1 := ⟨fuel - 1, by omega⟩
        rw [List.head?_nil, diffFileindexTreeEntry]
        dsimp only
        rw [hasked, Bool.and_false, List.dropWhile_nil]
        exact visits_walkTree ihb ihn hopens hrest hw (fun a ha => absurd ha List.not_mem_nil)
          ⟨by omega, by omega⟩
      | cons a w ih =>
        obtain ⟨fuel, rfl⟩ : ∃ n, fuel = n + 1 := ⟨fuel - 1, by omega⟩
        rw [List.length_cons] at hfuel
        have hcmp := hw.cmpItem_eq List.mem_cons_self p te.name
        have hafter := (List.pairwise_cons.mp hw.inOrder).1
        rw [List.head?_cons, diffFileindexTreeEntry, hcmp]
        rcases lt_trichotomy (names a) (p ++ [te.name]) with hlt | heq | hlt
        · rw [linCmp_eq_lt_iff.mpr hlt, List.dropWhile_cons_of_pos (by simpa using hlt.le)]
          dsimp only
          rw [hasked, Bool.and_false, hw.next.1]
          exact ih s fuel hw.next.2 (hp.imp_right fun h b hb => h b (List.mem_cons_of_mem a hb))
            (by omega)
        · have hdrop : w.dropWhile (fun b => names b ≤ p ++ [te.name]) = w := by
            cases w with
            | nil => rfl
            | cons b w =>
              refine List.dropWhile_cons_of_neg ?_
              simpa [← heq] using hafter b List.mem_cons_self
          rw [linCmp_eq_eq_iff.mpr heq, List.dropWhile_cons_of_pos (by simpa using heq.le), hdrop]
          dsimp only
          rw [hasked, Bool.and_false]
          have hfuel' : w.length + below.size < fuel ∧ w.length + next.size < fuel :=
            ⟨by omega, by omega⟩
          have h := visits_walkTree ihb ihn hopens hrest hw.next.2
            (fun b hb => heq ▸ hafter b hb) hfuel'
          rw [← hw.next.1] at h
          exact h
        · rw [linCmp_eq_gt_iff.mpr hlt, List.dropWhile_cons_of_neg (by simpa using hlt)]
          dsimp only
          rw [hasked]
          have hall : ∀ b ∈ a :: w, p ++ [te.name] < names b := by
            intro b hb
            rcases List.mem_cons.mp hb with rfl | hb
            · exact hlt
            · exact hlt.trans (hafter b hb)
          exact visits_walkTree ihb ihn hopens hrest hw hall
            ⟨by rw [List.length_cons]; omega, by rw [List.length_cons]; omega⟩

end

end Got

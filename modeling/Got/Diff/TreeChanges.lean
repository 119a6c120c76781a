import Got.Diff.Tree

/-!
# Which changes of a tree are reported

The changes between two trees are those between their leaves, which are all entries but
directories, by path. A comparison reports a path once if it reports it, and then it is
one where the leaves differ (`gotDiffTree_filter`, `reportAt_eq_some`).

But there are changes which are not reported. Where an entry is a directory in one tree
only, there is nothing reported at its path and below. And of the mode not all bits
are compared. So all changes are reported if the trees agree about the kind of what
is in both (`Comparable`).
-/

namespace Got

variable {es tree1 tree2 : List TreeEntry} {te te1 te2 : TreeEntry} {n : Name}
  {path label : List Name}

/-! ## Leaves -/

/-- The mode of an entry and its object. -/
abbrev Leaf := UInt32 × Object

/-- What a tree entry stands for in a diff: a blob with its mode, or nothing for a subtree. -/
def TreeEntry.leaf? (te : TreeEntry) : Option Leaf :=
  if S_ISDIR te.mode then none else some (te.mode, te.id)

/-- **The leaf at a path.** -/
def leafAt (es : List TreeEntry) (path : List Name) : Option Leaf :=
  (entryAt es path).bind TreeEntry.leaf?

/-- What is below an entry, if there is anything. -/
def TreeEntry.entries (te : TreeEntry) : List TreeEntry := te.subtree.getD []

theorem findEntryByName_nil (name : Str) : findEntryByName [] name = none := rfl

/-- There is nothing in an empty tree. -/
theorem entryAt_empty (path : List Name) : entryAt [] path = none := by
  cases path with
  | nil => rfl
  | cons n path =>
    cases path with
    | nil => rfl
    | cons m path => rw [entryAt_cons, findEntryByName_nil, Option.bind_none]

theorem leafAt_empty (path : List Name) : leafAt [] path = none := by
  rw [leafAt, entryAt_empty, Option.bind_none]

/-- The entry at a path of several names is looked up in the subtree of the first. -/
theorem entryAt_entries (es : List TreeEntry) (n m : Name) (path : List Name) :
    entryAt es (n :: m :: path)
      = (findEntryByName es n.val).bind fun te => entryAt te.entries (m :: path) := by
  rw [entryAt_cons]
  cases findEntryByName es n.val with
  | none => rfl
  | some te =>
    rw [Option.bind_some, Option.bind_some, TreeEntry.entries]
    cases te.subtree with
    | none => rw [Option.bind_none, Option.getD_none, entryAt_empty]
    | some es => rw [Option.bind_some, Option.getD_some]

theorem leafAt_entries (es : List TreeEntry) (n m : Name) (path : List Name) :
    leafAt es (n :: m :: path)
      = (findEntryByName es n.val).bind fun te => leafAt te.entries (m :: path) := by
  rw [leafAt, entryAt_entries]
  cases findEntryByName es n.val <;> rfl

theorem leafAt_singleton (es : List TreeEntry) (n : Name) :
    leafAt es [n] = (findEntryByName es n.val).bind TreeEntry.leaf? := rfl

theorem TreeEntry.entries_of_not_dir (h : S_ISDIR te.mode = false) : te.entries = [] := by
  rw [entries, subtree, if_neg (by rw [h]; exact Bool.false_ne_true), Option.getD_none]

/-! ## What is reported -/

/-- **Whether leaves are told apart.** -/
def Told (te1 te2 : TreeEntry) : Prop :=
  te1.isRegOrLnk ∧ te2.isRegOrLnk
    ∧ (te1.id ≠ te2.id ∨ comparedMode te1.mode ≠ comparedMode te2.mode)

instance (te1 te2 : TreeEntry) : Decidable (Told te1 te2) :=
  inferInstanceAs (Decidable (_ ∧ _ ∧ _))

/-- **What is reported of a name**: the leaves in both trees. -/
def reported : Option TreeEntry → Option TreeEntry → Option (Option Leaf × Option Leaf)
  | none, none => none
  | some te1, none => if te1.isSubmodule then none else te1.leaf?.map fun leaf => (some leaf, none)
  | none, some te2 => if te2.isSubmodule then none else te2.leaf?.map fun leaf => (none, some leaf)
  | some te1, some te2 =>
    if te1.isSubmodule ∨ te2.isSubmodule then none
    else if Told te1 te2 then some (te1.leaf?, te2.leaf?) else none

/-- **Where directories are entered.** -/
def entered : Option TreeEntry → Option TreeEntry → Bool
  | none, none => false
  | some te1, none => S_ISDIR te1.mode
  | none, some te2 => S_ISDIR te2.mode
  | some te1, some te2 => S_ISDIR te1.mode && S_ISDIR te2.mode

/-- The entries below a name. -/
def entriesOf (te : Option TreeEntry) : List TreeEntry := te.elim [] TreeEntry.entries

/-- **What is reported of a path.** -/
def reportAt (tree1 tree2 : List TreeEntry) : List Name → Option (Option Leaf × Option Leaf)
  | [] => none
  | [n] => reported (findEntryByName tree1 n.val) (findEntryByName tree2 n.val)
  | n :: m :: path =>
    if entered (findEntryByName tree1 n.val) (findEntryByName tree2 n.val) then
      reportAt (entriesOf (findEntryByName tree1 n.val)) (entriesOf (findEntryByName tree2 n.val))
        (m :: path)
    else none

/-- A file is neither a directory nor a submodule. -/
theorem TreeEntry.not_dir_of_isRegOrLnk (h : te.isRegOrLnk = true) :
    S_ISDIR te.mode = false ∧ te.isSubmodule = false := by
  unfold isRegOrLnk S_ISREG S_ISLNK at h
  unfold S_ISDIR isSubmodule
  rw [Bool.or_eq_true, decide_eq_true_iff, decide_eq_true_iff] at h
  rw [decide_eq_false_iff_not, decide_eq_false_iff_not]
  rcases h with h | h <;> rw [h] <;> decide

/-- A directory is no submodule. -/
theorem TreeEntry.not_submodule_of_dir (h : S_ISDIR te.mode = true) : te.isSubmodule = false := by
  unfold S_ISDIR at h
  unfold isSubmodule
  rw [decide_eq_true_iff] at h
  rw [decide_eq_false_iff_not, h]
  decide

/-- **Only differences are reported**, with what there is. -/
theorem reported_eq_some {te1 te2 : Option TreeEntry} {old new : Option Leaf}
    (h : reported te1 te2 = some (old, new)) :
    old = te1.bind TreeEntry.leaf? ∧ new = te2.bind TreeEntry.leaf? ∧ old ≠ new := by
  cases te1 with
  | none =>
    cases te2 with
    | none => exact nomatch h
    | some te2 =>
      rw [reported] at h
      split at h
      · exact nomatch h
      obtain ⟨leaf, hleaf, heq⟩ := Option.map_eq_some_iff.mp h
      cases heq
      exact ⟨rfl, hleaf.symm, nofun⟩
  | some te1 =>
    cases te2 with
    | none =>
      rw [reported] at h
      split at h
      · exact nomatch h
      obtain ⟨leaf, hleaf, heq⟩ := Option.map_eq_some_iff.mp h
      cases heq
      exact ⟨hleaf.symm, rfl, nofun⟩
    | some te2 =>
      rw [reported] at h
      split at h
      · exact nomatch h
      split at h
      · next htold =>
        obtain ⟨hreg1, hreg2, hdiff⟩ := htold
        cases h
        refine ⟨rfl, rfl, fun heq => ?_⟩
        rw [TreeEntry.leaf?, TreeEntry.leaf?, (TreeEntry.not_dir_of_isRegOrLnk hreg1).1,
          (TreeEntry.not_dir_of_isRegOrLnk hreg2).1, if_neg Bool.false_ne_true,
          if_neg Bool.false_ne_true, Option.some.injEq, Prod.mk.injEq] at heq
        rcases hdiff with hdiff | hdiff
        · exact hdiff heq.2
        · exact hdiff (congrArg comparedMode heq.1)
      · exact nomatch h

/-- A report at a path names the two leaves there, and they differ. -/
theorem reportAt_eq_some {tree1 tree2 : List TreeEntry} {old new : Option Leaf}
    (h : reportAt tree1 tree2 path = some (old, new)) :
    old = leafAt tree1 path ∧ new = leafAt tree2 path ∧ old ≠ new := by
  induction path generalizing tree1 tree2 with
  | nil => exact nomatch h
  | cons n path ih =>
    cases path with
    | nil => exact reported_eq_some h
    | cons m path =>
      rw [reportAt] at h
      split at h
      · obtain ⟨hold, hnew, hne⟩ := ih h
        rw [leafAt_entries, leafAt_entries]
        refine ⟨hold.trans ?_, hnew.trans ?_, hne⟩
        · cases findEntryByName tree1 n.val with
          | none => exact leafAt_empty _
          | some te => rfl
        · cases findEntryByName tree2 n.val with
          | none => exact leafAt_empty _
          | some te => rfl
      · exact nomatch h

/-- A tree does not differ from itself. -/
theorem reportAt_self (tree : List TreeEntry) (path : List Name) :
    reportAt tree tree path = none := by
  cases h : reportAt tree tree path with
  | none => rfl
  | some change =>
    obtain ⟨hold, hnew, hne⟩ := reportAt_eq_some h
    exact absurd (hold.trans hnew.symm) hne

/-! ## The calls -/

namespace DiffBlobCall

/-- The path that a call is about. -/
def changedPath (c : DiffBlobCall) : List Name := (c.label2.or c.label1).getD []

/-- The leaf of the first tree. -/
def old (c : DiffBlobCall) : Option Leaf := c.id1.map fun id => (c.mode1, id)

/-- The leaf of the second tree. -/
def new (c : DiffBlobCall) : Option Leaf := c.id2.map fun id => (c.mode2, id)

/-- What a call of the callback says: the leaf before, the leaf after. -/
def change (c : DiffBlobCall) : Option Leaf × Option Leaf := (c.old, c.new)

end DiffBlobCall

open DiffBlobCall

/-- **Calls are those which are to be reported** below a label. -/
structure CallsReport (label : List Name)
    (report : List Name → Option (Option Leaf × Option Leaf)) (calls : List DiffBlobCall) :
    Prop where
  below : ∀ c ∈ calls, ∃ path, c.changedPath = label ++ path
  filter : ∀ path, (calls.filter fun c => c.changedPath = label ++ path).map change
    = (report path).toList

variable {report : List Name → Option (Option Leaf × Option Leaf)} {calls : List DiffBlobCall}

theorem CallsReport.nil (h : ∀ path, report path = none) : CallsReport label report [] where
  below _ hc := absurd hc List.not_mem_nil
  filter path := by
    rw [h path]
    rfl

/-- One call reports a difference at the path itself and none below it. -/
theorem CallsReport.single {c : DiffBlobCall} (hpath : c.changedPath = label)
    (hself : report [] = some c.change) (hbelow : ∀ n path, report (n :: path) = none) :
    CallsReport label report [c] where
  below d hd := ⟨[], by rw [List.mem_singleton.mp hd, hpath, List.append_nil]⟩
  filter path := by
    cases path with
    | nil =>
      rw [hself, List.filter_cons_of_pos (by simp [hpath]), List.filter_nil]
      rfl
    | cons n path =>
      rw [hbelow, List.filter_cons_of_neg (by simp [hpath]), List.filter_nil]
      rfl

theorem CallsReport.congr {report' : List Name → Option (Option Leaf × Option Leaf)}
    (h : CallsReport label report calls) (heq : ∀ path, report' path = report path) :
    CallsReport label report' calls :=
  ⟨h.below, fun path => (heq path).symm ▸ h.filter path⟩

/-- What is reported of an entry and below. -/
def reportBelow (te1 te2 : Option TreeEntry) : List Name → Option (Option Leaf × Option Leaf)
  | [] => reported te1 te2
  | m :: path =>
    if entered te1 te2 then reportAt (entriesOf te1) (entriesOf te2) (m :: path) else none

theorem reportAt_cons (tree1 tree2 : List TreeEntry) (n : Name) (path : List Name) :
    reportAt tree1 tree2 (n :: path)
      = reportBelow (findEntryByName tree1 n.val) (findEntryByName tree2 n.val) path := by
  cases path <;> rfl

/-- The report of subtrees. -/
theorem reportBelow_of_entered {te1 te2 : Option TreeEntry} (h : entered te1 te2 = true)
    (hnone : reported te1 te2 = none) (path : List Name) :
    reportBelow te1 te2 path = reportAt (entriesOf te1) (entriesOf te2) path := by
  cases path with
  | nil => exact hnone
  | cons m path => rw [reportBelow, if_pos h]

/-! ## One entry -/

theorem TreeEntry.entries_eq_of_ok {es : List TreeEntry} (hdir : S_ISDIR te.mode = true)
    (h : gotObjectOpenAsTree te.id = .ok es) : te.entries = es := by
  rw [entries, subtree, if_pos hdir, h]
  rfl

theorem TreeEntry.leaf?_of_dir (h : S_ISDIR te.mode = true) : te.leaf? = none := by
  rw [leaf?, if_pos h]

theorem TreeEntry.leaf?_of_not_dir (h : ¬S_ISDIR te.mode = true) :
    te.leaf? = some (te.mode, te.id) := if_neg h

theorem not_told_of_dir (h : S_ISDIR te1.mode = true) : ¬Told te1 te2 := by
  intro htold
  rw [(TreeEntry.not_dir_of_isRegOrLnk htold.1).1] at h
  exact absurd h Bool.false_ne_true

/-- **What a comparison of trees is to do**, at any label. -/
def DiffTree.Spec (diffTree : DiffTree) : Prop :=
  ∀ tree1 tree2 label1 label2 label calls, NameOrder (tree1.getD []) → NameOrder (tree2.getD []) →
    (tree1.isSome → label1 = label) → (tree2.isSome → label2 = label) →
    diffTree tree1 tree2 label1 label2 = .ok calls →
      CallsReport label (reportAt (tree1.getD []) (tree2.getD [])) calls

variable {diffTree : DiffTree} {diffContent : Bool} {label1 label2 : List Name}

/-- Nothing is reported of submodules. -/
theorem reportBelow_submodule {te1 te2 : Option TreeEntry}
    (h : te1.any TreeEntry.isSubmodule ∨ te2.any TreeEntry.isSubmodule) (hsome : te1.isSome)
    (path : List Name) : reportBelow te1 te2 path = none := by
  obtain ⟨te1, rfl⟩ := Option.isSome_iff_exists.mp hsome
  have hdir : ∀ te : TreeEntry, te.isSubmodule = true → S_ISDIR te.mode = false := by
    intro te hte
    by_contra hdir
    rw [TreeEntry.not_submodule_of_dir (eq_true_of_ne_false hdir)] at hte
    exact Bool.false_ne_true hte
  cases te2 with
  | none =>
    have hsub : te1.isSubmodule = true := h.resolve_right Bool.false_ne_true
    cases path with
    | nil => exact if_pos hsub
    | cons m path => exact if_neg (by rw [entered, hdir te1 hsub]; exact Bool.false_ne_true)
  | some te2 =>
    have hsub : te1.isSubmodule = true ∨ te2.isSubmodule = true := h
    cases path with
    | nil => exact if_pos hsub
    | cons m path =>
      refine if_neg fun hent => ?_
      rw [entered, Bool.and_eq_true] at hent
      rcases hsub with hsub | hsub
      · exact Bool.false_ne_true ((hdir te1 hsub).symm.trans hent.1)
      · exact Bool.false_ne_true ((hdir te2 hsub).symm.trans hent.2)

/-- `diff_entry_old_new` reports what differs at an entry of the left tree and below it. -/
theorem diffEntryOldNew_spec (hspec : diffTree.Spec) {te2 : Option TreeEntry}
    (h : diffEntryOldNew diffTree diffContent te1 te2 label1 label2 = .ok calls)
    (hlabel : te2.isSome → label2 = label1) :
    CallsReport label1 (reportBelow (some te1) te2) calls := by
  unfold diffEntryOldNew at h
  split at h
  · next hsub =>
    obtain rfl := Except.ok.inj h
    exact CallsReport.nil (reportBelow_submodule (Or.inl hsub) rfl)
  next hsub1 =>
  cases te2 with
  | none =>
    dsimp only at h
    split at h
    · next hdir =>
      obtain ⟨_, -, h⟩ := bind_eq_ok_iff.mp h
      obtain ⟨tree, hopen, h⟩ := bind_eq_ok_iff.mp h
      refine (hspec (some tree) none _ _ label1 _ (open_order hopen) List.Pairwise.nil
        (fun _ => rfl) (fun h => nomatch h) h).congr fun path => ?_
      have hnone : reported (some te1) none = none := by
        rw [reported, TreeEntry.leaf?_of_dir hdir]
        split <;> rfl
      rw [@reportBelow_of_entered (some te1) none hdir hnone]
      exact congrArg (reportAt · [] path) (TreeEntry.entries_eq_of_ok hdir hopen)
    · next hdir =>
      obtain ⟨blob, -, h⟩ := bind_eq_ok_iff.mp h
      obtain rfl := Except.ok.inj h
      refine CallsReport.single rfl ?_ fun n path => if_neg hdir
      rw [reportBelow, reported, if_neg hsub1, TreeEntry.leaf?_of_not_dir hdir]
      rfl
  | some te2 =>
    obtain rfl : label2 = label1 := hlabel rfl
    dsimp only at h
    split at h
    · next hsub =>
      obtain rfl := Except.ok.inj h
      exact CallsReport.nil (reportBelow_submodule (Or.inr hsub) rfl)
    next hsub2 =>
    have hsub : ¬(te1.isSubmodule = true ∨ te2.isSubmodule = true) := fun h => h.elim hsub1 hsub2
    split at h
    · next hdirs =>
      obtain ⟨hdir1, hdir2, -⟩ := hdirs
      obtain ⟨_, -, h⟩ := bind_eq_ok_iff.mp h
      obtain ⟨_, -, h⟩ := bind_eq_ok_iff.mp h
      obtain ⟨tree1, hopen1, h⟩ := bind_eq_ok_iff.mp h
      obtain ⟨tree2, hopen2, h⟩ := bind_eq_ok_iff.mp h
      refine (hspec _ _ _ _ label2 _ (open_order hopen1) (open_order hopen2) (fun _ => rfl)
        (fun _ => rfl) h).congr fun path => ?_
      have hnone : reported (some te1) (some te2) = none := by
        rw [reported, if_neg hsub, if_neg (not_told_of_dir hdir1)]
      rw [reportBelow_of_entered (by rw [entered, hdir1, hdir2]; rfl) hnone]
      exact congrArg₂ (reportAt · · path) (TreeEntry.entries_eq_of_ok hdir1 hopen1)
        (TreeEntry.entries_eq_of_ok hdir2 hopen2)
    next hdirs =>
    split at h
    · next hmod =>
      obtain ⟨hnot, hreg1, hreg2, hdiff⟩ := hmod
      obtain ⟨⟨blob1, blob2⟩, -, h⟩ := bind_eq_ok_iff.mp h
      obtain rfl := Except.ok.inj h
      have hdir1 := (TreeEntry.not_dir_of_isRegOrLnk hreg1).1
      have hdir2 := (TreeEntry.not_dir_of_isRegOrLnk hreg2).1
      refine CallsReport.single rfl ?_ fun n path => if_neg ?_
      · rw [reportBelow, reported, if_neg hsub, if_pos ⟨hreg1, hreg2, hdiff⟩,
          TreeEntry.leaf?_of_not_dir (by rw [hdir1]; exact Bool.false_ne_true),
          TreeEntry.leaf?_of_not_dir (by rw [hdir2]; exact Bool.false_ne_true)]
        rfl
      · rw [entered, hdir1]
        exact Bool.false_ne_true
    next hmod =>
    -- nothing else is reported
    have hcalls : calls = [] := by
      split at h
      · exact (Except.ok.inj h).symm
      · exact (Except.ok.inj h).symm
    rw [hcalls]
    refine CallsReport.nil fun path => ?_
    cases path with
    | nil =>
      rw [reportBelow, reported, if_neg hsub, if_neg]
      intro htold
      refine hmod ⟨fun hdir => ?_, htold⟩
      exact not_told_of_dir hdir.1 htold
    | cons m path =>
      rw [reportBelow]
      split
      · next hent =>
        rw [entered, Bool.and_eq_true] at hent
        have hid : te1.id = te2.id := by
          by_contra hne
          exact hdirs ⟨hent.1, hent.2, hne⟩
        have hentries : te1.entries = te2.entries := by
          rw [TreeEntry.entries, TreeEntry.subtree, TreeEntry.entries, TreeEntry.subtree, hid,
            if_pos hent.1, if_pos hent.2]
        show reportAt te1.entries te2.entries _ = none
        rw [hentries, reportAt_self]
      · rfl

/-- `diff_entry_new_old` reports everything below an entry that the left tree does not have. -/
theorem diffEntryNewOld_spec (hspec : diffTree.Spec)
    (h : diffEntryNewOld diffTree diffContent te2 none label2 = .ok calls) :
    CallsReport label2 (reportBelow none (some te2)) calls := by
  unfold diffEntryNewOld at h
  rw [if_neg (by exact Bool.false_ne_true)] at h
  split at h
  · next hsub =>
    obtain rfl := Except.ok.inj h
    refine CallsReport.nil fun path => ?_
    cases path with
    | nil => exact if_pos hsub
    | cons m path =>
      refine if_neg fun hdir => ?_
      exact Bool.false_ne_true ((TreeEntry.not_submodule_of_dir hdir).symm.trans hsub)
  next hsub =>
  split at h
  · next hdir =>
    obtain ⟨_, -, h⟩ := bind_eq_ok_iff.mp h
    obtain ⟨tree, hopen, h⟩ := bind_eq_ok_iff.mp h
    refine (hspec none (some tree) _ _ label2 _ List.Pairwise.nil (open_order hopen)
      (fun h => nomatch h) (fun _ => rfl) h).congr fun path => ?_
    have hnone : reported none (some te2) = none := by
      rw [reported, TreeEntry.leaf?_of_dir hdir]
      split <;> rfl
    rw [@reportBelow_of_entered none (some te2) hdir hnone]
    exact congrArg (reportAt [] · path) (TreeEntry.entries_eq_of_ok hdir hopen)
  · next hdir =>
    obtain ⟨blob, -, h⟩ := bind_eq_ok_iff.mp h
    obtain rfl := Except.ok.inj h
    refine CallsReport.single rfl ?_ fun n path => if_neg hdir
    rw [reportBelow, reported, if_neg hsub, TreeEntry.leaf?_of_not_dir hdir]
    rfl

/-! ## The loop -/

/-- What was returned. -/
def returned (f : TreeEntry → Except GotErr (List DiffBlobCall)) (te : TreeEntry) :
    List DiffBlobCall := (f te).toOption.getD []

theorem returned_eq {f : TreeEntry → Except GotErr (List DiffBlobCall)} (h : f te = .ok calls) :
    returned f te = calls := by
  rw [returned, h]
  rfl

variable {oldNew newOld : TreeEntry → Except GotErr (List DiffBlobCall)}

/-- The rest of the right tree is reported entry by entry, without an error in between. -/
theorem diffTreeRest_spec (h : diffTreeRest newOld tree2 = .ok calls) :
    (∀ te ∈ tree2, ∃ cs, newOld te = .ok cs) ∧ calls = tree2.flatMap (returned newOld) := by
  induction tree2 generalizing calls with
  | nil => exact ⟨fun _ h => absurd h List.not_mem_nil, (Except.ok.inj h).symm⟩
  | cons te2 rest2 ih =>
    obtain ⟨cs, hcs, h⟩ := bind_eq_ok_iff.mp h
    obtain ⟨more, hmore, h⟩ := bind_eq_ok_iff.mp h
    obtain ⟨hok, hall⟩ := ih hmore
    refine ⟨fun te hte => ?_, ?_⟩
    · rcases List.mem_cons.mp hte with rfl | hte
      · exact ⟨cs, hcs⟩
      · exact hok te hte
    · rw [List.flatMap_cons, returned_eq hcs, ← hall]
      exact (Except.ok.inj h).symm

/-- **Each entry of either tree is looked at once.** -/
theorem diffTreeLoop_spec (h : diffTreeLoop oldNew newOld tree1 tree2 = .ok calls) :
    (∀ te ∈ tree1, ∃ cs, oldNew te = .ok cs) ∧ (∀ te ∈ tree2, ∃ cs, newOld te = .ok cs)
      ∧ calls.Perm (tree1.flatMap (returned oldNew) ++ tree2.flatMap (returned newOld)) := by
  induction tree1 generalizing tree2 calls with
  | nil =>
    obtain ⟨hok, hall⟩ := diffTreeRest_spec h
    exact ⟨fun _ h => absurd h List.not_mem_nil, hok, hall ▸ List.Perm.refl _⟩
  | cons te1 rest1 ih =>
    obtain ⟨cs1, hcs1, h⟩ := bind_eq_ok_iff.mp h
    obtain ⟨cs2, hcs2, h⟩ := bind_eq_ok_iff.mp h
    obtain ⟨more, hmore, h⟩ := bind_eq_ok_iff.mp h
    obtain ⟨hok1, hok2, hperm⟩ := ih hmore
    have hone : ∀ te ∈ te1 :: rest1, ∃ cs, oldNew te = .ok cs := by
      intro te hte
      rcases List.mem_cons.mp hte with rfl | hte
      · exact ⟨cs1, hcs1⟩
      · exact hok1 te hte
    refine ⟨hone, ?_⟩
    rw [← Except.ok.inj h, List.flatMap_cons, returned_eq hcs1]
    cases tree2 with
    | nil =>
      obtain rfl := Except.ok.inj hcs2
      refine ⟨fun _ h => absurd h List.not_mem_nil, ?_⟩
      rw [List.append_nil, List.append_assoc]
      exact hperm.append_left cs1
    | cons te2 rest2 =>
      refine ⟨fun te hte => ?_, ?_⟩
      · rcases List.mem_cons.mp hte with rfl | hte
        · exact ⟨cs2, hcs2⟩
        · exact hok2 te hte
      · have hcs2' : newOld te2 = .ok cs2 := hcs2
        rw [List.flatMap_cons, returned_eq hcs2', List.append_assoc, List.append_assoc]
        refine List.Perm.append_left cs1 ((hperm.append_left cs2).trans ?_)
        rw [List.tail_cons, ← List.append_assoc, ← List.append_assoc]
        exact List.perm_append_comm.append_right _

/-- **The calls of one name.** -/
theorem filter_flatMap_name {tree : List TreeEntry} (horder : NameOrder tree)
    {f : TreeEntry → List DiffBlobCall}
    (hbelow : ∀ te ∈ tree, ∀ c ∈ f te, ∃ path, c.changedPath = label ++ [te.name] ++ path)
    (n : Name) (path : List Name) :
    (tree.flatMap f).filter (fun c => c.changedPath = label ++ [n] ++ path)
      = ((findEntryByName tree n.val).elim [] f).filter
          fun c => c.changedPath = label ++ [n] ++ path := by
  have hother : ∀ te ∈ tree, te.name ≠ n →
      (f te).filter (fun c => c.changedPath = label ++ [n] ++ path) = [] := by
    intro te hte hne
    refine List.filter_eq_nil_iff.mpr fun c hc heq => hne ?_
    obtain ⟨path', hpath⟩ := hbelow te hte c hc
    rw [decide_eq_true_iff, hpath, List.append_assoc, List.append_assoc,
      List.append_cancel_left_eq] at heq
    exact List.head_eq_of_cons_eq heq
  rw [List.filter_flatMap]
  cases hfind : findEntryByName tree n.val with
  | none =>
    have hno := (findEntryByName_eq_none_iff horder).mp hfind
    exact List.flatMap_eq_nil_iff.mpr fun te hte => hother te hte (hno te hte)
  | some te =>
    obtain ⟨hte, hname⟩ := (findEntryByName_eq_some_iff horder).mp hfind
    obtain ⟨before, after, rfl⟩ := List.append_of_mem hte
    obtain ⟨-, hafter, hbefore⟩ := List.pairwise_append.mp horder
    have hafter := (List.pairwise_cons.mp hafter).1
    have hnil1 : before.flatMap (fun te => (f te).filter
        fun c => c.changedPath = label ++ [n] ++ path) = [] := by
      refine List.flatMap_eq_nil_iff.mpr fun te' hte' => ?_
      refine hother te' (List.mem_append_left _ hte') fun heq => ?_
      have hlt := hbefore te' hte' te List.mem_cons_self
      rw [heq, hname] at hlt
      exact lt_irrefl _ hlt
    have hnil2 : after.flatMap (fun te => (f te).filter
        fun c => c.changedPath = label ++ [n] ++ path) = [] := by
      refine List.flatMap_eq_nil_iff.mpr fun te' hte' => ?_
      refine hother te' (List.mem_append_right _ (List.mem_cons_of_mem _ hte')) fun heq => ?_
      have hlt := hafter te' hte'
      rw [heq, hname] at hlt
      exact lt_irrefl _ hlt
    rw [List.flatMap_append, List.flatMap_cons, hnil1, hnil2, List.nil_append, List.append_nil]
    rfl

theorem treeFindEntry_eq (tree : Option (List TreeEntry)) (name : Name) :
    treeFindEntry tree name = findEntryByName (tree.getD []) name.val := by
  cases tree <;> rfl

/-- **What is reported of the entries** is what is reported of the trees. -/
theorem callsReport_of_entries {f g : TreeEntry → List DiffBlobCall} (horder1 : NameOrder tree1)
    (horder2 : NameOrder tree2)
    (hold : ∀ te ∈ tree1, CallsReport (label ++ [te.name])
      (reportBelow (some te) (findEntryByName tree2 te.name.val)) (f te))
    (hnew : ∀ te ∈ tree2, findEntryByName tree1 te.name.val = none →
      CallsReport (label ++ [te.name]) (reportBelow none (some te)) (g te))
    (hboth : ∀ te ∈ tree2, (∃ te1, findEntryByName tree1 te.name.val = some te1) → g te = [])
    (hperm : calls.Perm (tree1.flatMap f ++ tree2.flatMap g)) :
    CallsReport label (reportAt tree1 tree2) calls := by
  have hbelow1 : ∀ te ∈ tree1, ∀ c ∈ f te, ∃ path, c.changedPath = label ++ [te.name] ++ path :=
    fun te hte => (hold te hte).below
  have hbelow2 : ∀ te ∈ tree2, ∀ c ∈ g te, ∃ path, c.changedPath = label ++ [te.name] ++ path := by
    intro te hte c hc
    cases hfind : findEntryByName tree1 te.name.val with
    | none => exact (hnew te hte hfind).below c hc
    | some te1 =>
      rw [hboth te hte ⟨te1, hfind⟩] at hc
      exact absurd hc List.not_mem_nil
  have hcons : ∀ c ∈ calls, ∃ n path, c.changedPath = label ++ n :: path := by
    intro c hc
    rcases List.mem_append.mp (hperm.mem_iff.mp hc) with hc | hc
    · obtain ⟨te, hte, hc⟩ := List.mem_flatMap.mp hc
      obtain ⟨path, hpath⟩ := hbelow1 te hte c hc
      exact ⟨te.name, path, by rw [hpath, List.append_assoc]; rfl⟩
    · obtain ⟨te, hte, hc⟩ := List.mem_flatMap.mp hc
      obtain ⟨path, hpath⟩ := hbelow2 te hte c hc
      exact ⟨te.name, path, by rw [hpath, List.append_assoc]; rfl⟩
  refine ⟨fun c hc => ?_, fun path => ?_⟩
  · obtain ⟨n, path, hpath⟩ := hcons c hc
    exact ⟨n :: path, hpath⟩
  cases path with
  | nil =>
    rw [List.filter_eq_nil_iff.mpr]
    · rfl
    · intro c hc heq
      obtain ⟨n, path, hpath⟩ := hcons c hc
      rw [decide_eq_true_iff, hpath, List.append_cancel_left_eq] at heq
      exact nomatch heq
  | cons n path =>
    have hsplit : label ++ n :: path = label ++ [n] ++ path := by
      rw [List.append_assoc]
      rfl
    have hone : ((calls.filter fun c => c.changedPath = label ++ n :: path).map change).Perm
        (reportAt tree1 tree2 (n :: path)).toList := by
      refine ((hperm.filter _).map change).trans (List.Perm.of_eq ?_)
      rw [hsplit, List.filter_append, filter_flatMap_name horder1 hbelow1,
        filter_flatMap_name horder2 hbelow2, reportAt_cons, List.map_append]
      cases hfind1 : findEntryByName tree1 n.val with
      | some te1 =>
        obtain ⟨hte1, rfl⟩ := (findEntryByName_eq_some_iff horder1).mp hfind1
        have hg : (findEntryByName tree2 te1.name.val).elim [] g = [] := by
          cases hfind2 : findEntryByName tree2 te1.name.val with
          | none => rfl
          | some te2 =>
            obtain ⟨hte2, hname⟩ := (findEntryByName_eq_some_iff horder2).mp hfind2
            exact hboth te2 hte2 ⟨te1, by rw [hname, hfind1]⟩
        rw [hg, List.filter_nil, List.map_nil, List.append_nil]
        exact (hold te1 hte1).filter path
      | none =>
        rw [Option.elim_none, List.filter_nil, List.map_nil, List.nil_append]
        cases hfind2 : findEntryByName tree2 n.val with
        | none =>
          cases path <;> rfl
        | some te2 =>
          obtain ⟨hte2, rfl⟩ := (findEntryByName_eq_some_iff horder2).mp hfind2
          exact (hnew te2 hte2 hfind1).filter path
    cases hreport : reportAt tree1 tree2 (n :: path) with
    | none =>
      rw [hreport] at hone
      exact List.perm_nil.mp hone
    | some report =>
      rw [hreport] at hone
      exact List.perm_singleton.mp hone

/-- **A comparison reports what it is to report.** -/
theorem gotDiffTree_spec (diffContent : Bool) (fuel : ℕ) :
    (gotDiffTree diffContent fuel).Spec := by
  induction fuel with
  | zero =>
    intro tree1 tree2 label1 label2 label calls _ _ _ _ h
    exact nomatch h
  | succ fuel ih =>
    intro tree1 tree2 label1 label2 label calls horder1 horder2 hlabel1 hlabel2 h
    rw [gotDiffTree] at h
    obtain ⟨hok1, hok2, hperm⟩ := diffTreeLoop_spec h
    refine callsReport_of_entries horder1 horder2 (fun te1 hte1 => ?_) (fun te2 hte2 hnone => ?_)
      (fun te2 hte2 hsome => ?_) hperm
    · obtain ⟨cs, hcs⟩ := hok1 te1 hte1
      have hsome : tree1.isSome := by
        cases tree1 with
        | none => exact absurd hte1 List.not_mem_nil
        | some tree1 => rfl
      rw [returned_eq hcs, ← treeFindEntry_eq, ← hlabel1 hsome]
      refine diffEntryOldNew_spec ih hcs fun hfound => ?_
      have hsome2 : tree2.isSome := by
        cases tree2 with
        | none => exact nomatch hfound
        | some tree2 => rfl
      rw [hlabel1 hsome, hlabel2 hsome2]
    · obtain ⟨cs, hcs⟩ := hok2 te2 hte2
      have hsome : tree2.isSome := by
        cases tree2 with
        | none => exact absurd hte2 List.not_mem_nil
        | some tree2 => rfl
      rw [returned_eq hcs, ← hlabel2 hsome]
      rw [treeFindEntry_eq, hnone] at hcs
      exact diffEntryNewOld_spec ih hcs
    · obtain ⟨te1, hte1⟩ := hsome
      refine returned_eq ?_
      rw [treeFindEntry_eq, hte1]
      rfl

/-! ## When all changes are reported -/

/-- **No submodules**, at any path. -/
def NoSubmodules (tree : List TreeEntry) : Prop :=
  ∀ path te, entryAt tree path = some te → te.isSubmodule = false

/-- **Entries which can be compared**: both are directories, or neither is, and then they are
the same or are told apart. -/
def Comparable (te1 te2 : TreeEntry) : Prop :=
  (S_ISDIR te1.mode ∧ S_ISDIR te2.mode)
    ∨ ¬S_ISDIR te1.mode ∧ ¬S_ISDIR te2.mode
      ∧ ((te1.mode, te1.id) = (te2.mode, te2.id) ∨ Told te1 te2)

/-- **What is in both trees can be compared.** -/
def SameKinds (tree1 tree2 : List TreeEntry) : Prop :=
  ∀ path te1 te2, entryAt tree1 path = some te1 → entryAt tree2 path = some te2 →
    Comparable te1 te2

/-- An entry of a subtree is an entry of the tree, farther down. -/
theorem entryAt_below {tree : List TreeEntry} (hfind : findEntryByName tree n.val = some te)
    {below : TreeEntry} (h : entryAt te.entries path = some below) :
    entryAt tree (n :: path) = some below := by
  cases path with
  | nil => exact nomatch h
  | cons m path =>
    rw [entryAt_entries, hfind]
    exact h

theorem NoSubmodules.entries (h : NoSubmodules tree1)
    (hfind : findEntryByName tree1 n.val = some te) : NoSubmodules te.entries :=
  fun _ below hbelow => h _ below (entryAt_below hfind hbelow)

theorem NoSubmodules.empty : NoSubmodules [] := by
  intro path te h
  rw [entryAt_empty] at h
  exact nomatch h

theorem NoSubmodules.found (h : NoSubmodules tree1)
    (hfind : findEntryByName tree1 n.val = some te) : ¬te.isSubmodule = true := by
  have hnot : te.isSubmodule = false := h [n] te hfind
  rw [hnot]
  exact Bool.false_ne_true

/-- Of a name which is in one tree only, all is reported. -/
theorem reported_of_leaf {te1 te2 : Option TreeEntry} (hsub1 : ∀ te ∈ te1, ¬te.isSubmodule = true)
    (hsub2 : ∀ te ∈ te2, ¬te.isSubmodule = true)
    (hcomp : ∀ a ∈ te1, ∀ b ∈ te2, Comparable a b)
    (hne : te1.bind TreeEntry.leaf? ≠ te2.bind TreeEntry.leaf?) :
    (reported te1 te2).isSome := by
  cases te1 with
  | none =>
    cases te2 with
    | none => exact absurd rfl hne
    | some te2 =>
      rw [reported, if_neg (hsub2 te2 rfl)]
      cases hleaf : te2.leaf? with
      | none => exact absurd hleaf.symm hne
      | some leaf => rfl
  | some te1 =>
    cases te2 with
    | none =>
      rw [reported, if_neg (hsub1 te1 rfl)]
      cases hleaf : te1.leaf? with
      | none => exact absurd hleaf hne
      | some leaf => rfl
    | some te2 =>
      rw [reported, if_neg fun h => h.elim (hsub1 te1 rfl) (hsub2 te2 rfl)]
      rw [Option.bind_some, Option.bind_some] at hne
      rcases hcomp te1 rfl te2 rfl with ⟨hdir1, hdir2⟩ | ⟨hdir1, hdir2, heq | htold⟩
      · rw [TreeEntry.leaf?_of_dir hdir1, TreeEntry.leaf?_of_dir hdir2] at hne
        exact absurd rfl hne
      · rw [TreeEntry.leaf?_of_not_dir hdir1, TreeEntry.leaf?_of_not_dir hdir2, heq] at hne
        exact absurd rfl hne
      · rw [if_pos htold]
        rfl

/-- The leaf at a path of several names is a leaf of the entries of the first. -/
theorem leafAt_entriesOf (tree : List TreeEntry) (n m : Name) (path : List Name) :
    leafAt tree (n :: m :: path)
      = leafAt (entriesOf (findEntryByName tree n.val)) (m :: path) := by
  rw [leafAt_entries]
  cases findEntryByName tree n.val with
  | none => exact (leafAt_empty _).symm
  | some te => rfl

/-- Directories are entered, or there is nothing below. -/
theorem entriesOf_of_not_entered {te1 te2 : Option TreeEntry} (h : entered te1 te2 = false)
    (hcomp : ∀ a ∈ te1, ∀ b ∈ te2, Comparable a b) : entriesOf te1 = [] ∧ entriesOf te2 = [] := by
  cases te1 with
  | none =>
    cases te2 with
    | none => exact ⟨rfl, rfl⟩
    | some te2 => exact ⟨rfl, TreeEntry.entries_of_not_dir h⟩
  | some te1 =>
    cases te2 with
    | none => exact ⟨TreeEntry.entries_of_not_dir h, rfl⟩
    | some te2 =>
      rcases hcomp te1 rfl te2 rfl with ⟨hdir1, hdir2⟩ | ⟨hdir1, hdir2, -⟩
      · rw [entered, hdir1, hdir2] at h
        exact absurd h (by decide)
      · exact ⟨TreeEntry.entries_of_not_dir (Bool.eq_false_of_not_eq_true hdir1),
          TreeEntry.entries_of_not_dir (Bool.eq_false_of_not_eq_true hdir2)⟩

/-- Where no submodule and no change of kind is in the way, every difference is reported. -/
theorem reportAt_isSome (hsub1 : NoSubmodules tree1) (hsub2 : NoSubmodules tree2)
    (hkinds : SameKinds tree1 tree2) (hne : leafAt tree1 path ≠ leafAt tree2 path) :
    (reportAt tree1 tree2 path).isSome := by
  induction path generalizing tree1 tree2 with
  | nil => exact absurd rfl hne
  | cons n path ih =>
    have hcomp : ∀ a ∈ findEntryByName tree1 n.val, ∀ b ∈ findEntryByName tree2 n.val,
        Comparable a b := fun a ha b hb => hkinds [n] a b ha hb
    cases path with
    | nil =>
      exact reported_of_leaf (fun te hte => hsub1.found hte) (fun te hte => hsub2.found hte)
        hcomp hne
    | cons m path =>
      rw [leafAt_entriesOf, leafAt_entriesOf] at hne
      rw [reportAt]
      split
      · next hent =>
        refine ih ?_ ?_ (fun path te1 te2 h1 h2 => ?_) hne
        · cases hfind : findEntryByName tree1 n.val with
          | none => exact NoSubmodules.empty
          | some te => exact hsub1.entries hfind
        · cases hfind : findEntryByName tree2 n.val with
          | none => exact NoSubmodules.empty
          | some te => exact hsub2.entries hfind
        · cases hfind1 : findEntryByName tree1 n.val with
          | none =>
            rw [hfind1] at h1
            exact nomatch (entryAt_empty path).symm.trans h1
          | some te =>
            cases hfind2 : findEntryByName tree2 n.val with
            | none =>
              rw [hfind2] at h2
              exact nomatch (entryAt_empty path).symm.trans h2
            | some te' =>
              rw [hfind1] at h1
              rw [hfind2] at h2
              exact hkinds (n :: path) te1 te2 (entryAt_below hfind1 h1) (entryAt_below hfind2 h2)
      · next hent =>
        obtain ⟨hnil1, hnil2⟩ := entriesOf_of_not_entered (Bool.eq_false_of_not_eq_true hent) hcomp
        rw [hnil1, hnil2] at hne
        exact absurd rfl hne

/-- **If all changes are reported then entries can be compared.** -/
theorem comparable_of_reportAt
    (h : ∀ path, leafAt tree1 path ≠ leafAt tree2 path → (reportAt tree1 tree2 path).isSome)
    (h1 : entryAt tree1 path = some te1) (h2 : entryAt tree2 path = some te2) :
    Comparable te1 te2 := by
  induction path generalizing tree1 tree2 with
  | nil => exact nomatch h1
  | cons n path ih =>
    cases path with
    | nil =>
      have hn := h [n]
      have hfind1 : findEntryByName tree1 n.val = some te1 := h1
      have hfind2 : findEntryByName tree2 n.val = some te2 := h2
      rw [leafAt_singleton, leafAt_singleton, reportAt, hfind1, hfind2, Option.bind_some,
        Option.bind_some] at hn
      -- nothing but what is told apart is reported
      have htold : (reported (some te1) (some te2)).isSome → Told te1 te2 := by
        intro hsome
        rw [reported] at hsome
        split at hsome
        · exact absurd hsome Bool.false_ne_true
        split at hsome
        · next htold => exact htold
        · exact absurd hsome Bool.false_ne_true
      by_cases hdir1 : S_ISDIR te1.mode = true
      · by_cases hdir2 : S_ISDIR te2.mode = true
        · exact Or.inl ⟨hdir1, hdir2⟩
        · rw [TreeEntry.leaf?_of_dir hdir1, TreeEntry.leaf?_of_not_dir hdir2] at hn
          exact absurd (htold (hn nofun)) (not_told_of_dir hdir1)
      · by_cases hdir2 : S_ISDIR te2.mode = true
        · rw [TreeEntry.leaf?_of_not_dir hdir1, TreeEntry.leaf?_of_dir hdir2] at hn
          have hreg := (htold (hn nofun)).2.1
          rw [(TreeEntry.not_dir_of_isRegOrLnk hreg).1] at hdir2
          exact absurd hdir2 Bool.false_ne_true
        · refine Or.inr ⟨hdir1, hdir2, ?_⟩
          rw [TreeEntry.leaf?_of_not_dir hdir1, TreeEntry.leaf?_of_not_dir hdir2] at hn
          by_cases heq : (te1.mode, te1.id) = (te2.mode, te2.id)
          · exact Or.inl heq
          · exact Or.inr (htold (hn fun h => heq (Option.some.inj h)))
    | cons m path =>
      rw [entryAt_entries] at h1 h2
      obtain ⟨te, hfind1, h1⟩ := Option.bind_eq_some_iff.mp h1
      obtain ⟨te', hfind2, h2⟩ := Option.bind_eq_some_iff.mp h2
      refine ih (fun path hne => ?_) h1 h2
      cases path with
      | nil => exact absurd rfl hne
      | cons m' path =>
        have hn := h (n :: m' :: path)
        rw [leafAt_entriesOf, leafAt_entriesOf, hfind1, hfind2] at hn
        have hsome := hn hne
        rw [reportAt, hfind1, hfind2] at hsome
        split at hsome
        · exact hsome
        · exact absurd hsome Bool.false_ne_true

end Got

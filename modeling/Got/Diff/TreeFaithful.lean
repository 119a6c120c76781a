import Got.Diff.TreeChanges

/-!
# A comparison of trees as a change from one to the other

The calls that are made are read as changes of leaves. They are faithful if one tree
becomes the other, with one call for each path where there is a change and none for the
others. This is so if and only if what is in both trees can be compared
(`gotDiffTree_faithful_iff`).

A comparison does return calls if all objects are there, and it goes as deep as the trees
(`gotDiffTree_ok`).
-/

namespace Got

open DiffBlobCall

variable {tree1 tree2 : List TreeEntry} {te te1 te2 : TreeEntry} {label : List Name}
  {diffContent : Bool} {fuel : ℕ} {calls : List DiffBlobCall}

/-! ## Trees that can be opened -/

mutual

/-- How deep a tree is. -/
def Object.depth : Object → ℕ
  | .blob _ => 0
  | .tree entries => entries.depth + 1
  | .foreign _ => 0

/-- The depth of the deepest subtree: the recursion of the walk is on it. -/
def Entries.depth : Entries → ℕ
  | .nil => 0
  | .cons _ _ id rest => max id.depth rest.depth

end

/-- An entry of a tree is no deeper than the tree. -/
theorem Entries.depth_le {entries : Entries} (h : te ∈ entries.toList) :
    te.id.depth ≤ entries.depth := by
  induction entries using Entries.toList.induct with
  | case1 => exact absurd h List.not_mem_nil
  | case2 mode name id rest ih =>
    rw [Entries.depth]
    rcases List.mem_cons.mp h with rfl | h
    · exact le_max_left _ _
    · exact (ih h).trans (le_max_right _ _)

/-- What is in a directory is less deep. -/
theorem depth_lt_of_open {id : Object} {es : List TreeEntry} (hcheck : checkTree id = .ok ())
    (hopen : gotObjectOpenAsTree id = .ok es) (h : te ∈ es) : te.id.depth < id.depth := by
  cases id with
  | blob content => exact nomatch hcheck
  | foreign id => exact nomatch hcheck
  | tree entries =>
    have hperm := (parseTree_spec List.Pairwise.nil hopen).2
    rw [List.append_nil] at hperm
    rw [Object.depth]
    exact Nat.lt_succ_of_le (Entries.depth_le (hperm.mem_iff.mp h))

/-- **All that is compared is there**: directories are trees, and other entries are blobs if
their content matters. -/
def Opens (diffContent : Bool) (tree : List TreeEntry) : Prop :=
  ∀ path te, entryAt tree path = some te →
    (S_ISDIR te.mode → checkTree te.id = .ok () ∧ ∃ es, gotObjectOpenAsTree te.id = .ok es)
      ∧ (¬S_ISDIR te.mode → diffContent → ∃ content, te.id = .blob content)

/-- If everything in a tree can be opened then so can everything in its subtrees. -/
theorem Opens.of_mem (h : Opens diffContent tree1) (horder : NameOrder tree1) (hte : te ∈ tree1)
    {es : List TreeEntry} (hdir : S_ISDIR te.mode = true)
    (hopen : gotObjectOpenAsTree te.id = .ok es) :
    Opens diffContent es := by
  intro path below hbelow
  have hentries := TreeEntry.entries_eq_of_ok hdir hopen
  exact h (te.name :: path) below
    (entryAt_below (findEntryByName_of_mem horder hte) (hentries.symm ▸ hbelow))

/-- A blob can be opened where one is there to be opened. -/
theorem openBlob_ok (diffContent : Bool) {id : Object}
    (h : diffContent → ∃ content, id = .blob content) :
    ∃ blob, openBlob diffContent id = .ok blob := by
  unfold openBlob
  split
  · next hcontent =>
    obtain ⟨content, rfl⟩ := h hcontent
    exact ⟨some content, rfl⟩
  · exact ⟨none, rfl⟩

/-- Both sides of a modified entry can be opened where both are blobs. -/
theorem openModifiedBlobs_ok (diffContent : Bool) {id1 id2 : Object}
    (h1 : diffContent → ∃ content, id1 = .blob content)
    (h2 : diffContent → ∃ content, id2 = .blob content) :
    ∃ blobs, openModifiedBlobs diffContent id1 id2 = .ok blobs := by
  unfold openModifiedBlobs
  split
  · exact ⟨_, rfl⟩
  · next hcontent =>
    rw [Bool.not_eq_true, Bool.not_eq_false] at hcontent
    obtain ⟨content1, rfl⟩ := h1 hcontent
    obtain ⟨content2, rfl⟩ := h2 hcontent
    exact ⟨_, rfl⟩

/-- Directories that are deep enough for the fuel. -/
def FitsFuel (diffContent : Bool) (fuel : ℕ) (tree : List TreeEntry) : Prop :=
  NameOrder tree ∧ Opens diffContent tree ∧ ∀ te ∈ tree, te.id.depth < fuel

theorem FitsFuel.nil : FitsFuel diffContent fuel [] := by
  refine ⟨List.Pairwise.nil, fun path te h => ?_, fun _ h => absurd h List.not_mem_nil⟩
  rw [entryAt_empty] at h
  exact nomatch h

/-- A directory that fits in one step less. -/
theorem FitsFuel.directory (h : FitsFuel diffContent (fuel + 1) tree1) (hte : te ∈ tree1)
    (hdir : S_ISDIR te.mode = true) :
    ∃ es, checkTree te.id = .ok () ∧ gotObjectOpenAsTree te.id = .ok es
      ∧ 0 < fuel ∧ FitsFuel diffContent fuel es := by
  obtain ⟨horder, hopens, hdepth⟩ := h
  obtain ⟨hcheck, es, hopen⟩ := (hopens [te.name] te (findEntryByName_of_mem horder hte)).1 hdir
  have hlt := hdepth te hte
  refine ⟨es, hcheck, hopen, ?_, open_order hopen, hopens.of_mem horder hte hdir hopen,
    fun below hbelow => ?_⟩
  · cases hid : te.id with
    | blob content =>
      rw [hid] at hcheck
      exact nomatch hcheck
    | foreign id =>
      rw [hid] at hcheck
      exact nomatch hcheck
    | tree entries =>
      rw [hid, Object.depth] at hlt
      omega
  · have := depth_lt_of_open hcheck hopen hbelow
    omega

theorem FitsFuel.blob (h : FitsFuel diffContent fuel tree1) (hte : te ∈ tree1)
    (hdir : ¬S_ISDIR te.mode = true) : diffContent → ∃ content, te.id = .blob content :=
  (h.2.1 [te.name] te (findEntryByName_of_mem h.1 hte)).2 hdir

/-- The rest of the right tree is walked without an error, if each entry is. -/
theorem diffTreeRest_ok {newOld : TreeEntry → Except GotErr (List DiffBlobCall)}
    (h : ∀ te ∈ tree2, ∃ cs, newOld te = .ok cs) :
    ∃ calls, diffTreeRest newOld tree2 = .ok calls := by
  induction tree2 with
  | nil => exact ⟨[], rfl⟩
  | cons te2 rest2 ih =>
    obtain ⟨cs, hcs⟩ := h te2 List.mem_cons_self
    obtain ⟨more, hmore⟩ := ih fun te hte => h te (List.mem_cons_of_mem _ hte)
    exact ⟨cs ++ more, by rw [diffTreeRest, hcs, ok_bind, hmore, ok_bind]; rfl⟩

/-- The loop over both trees has no error, if no entry has one. -/
theorem diffTreeLoop_ok {oldNew newOld : TreeEntry → Except GotErr (List DiffBlobCall)}
    (h1 : ∀ te ∈ tree1, ∃ cs, oldNew te = .ok cs) (h2 : ∀ te ∈ tree2, ∃ cs, newOld te = .ok cs) :
    ∃ calls, diffTreeLoop oldNew newOld tree1 tree2 = .ok calls := by
  induction tree1 generalizing tree2 with
  | nil => exact diffTreeRest_ok h2
  | cons te1 rest1 ih =>
    obtain ⟨cs1, hcs1⟩ := h1 te1 List.mem_cons_self
    obtain ⟨cs2, hcs2⟩ : ∃ cs2, diffTreeAt newOld tree2 = .ok cs2 := by
      cases tree2 with
      | nil => exact ⟨[], rfl⟩
      | cons te2 rest2 => exact h2 te2 List.mem_cons_self
    obtain ⟨more, hmore⟩ := @ih tree2.tail (fun te hte => h1 te (List.mem_cons_of_mem _ hte))
      fun te hte => h2 te (List.mem_of_mem_tail hte)
    refine ⟨cs1 ++ cs2 ++ more, ?_⟩
    rw [diffTreeLoop, hcs1, ok_bind, hcs2, ok_bind, hmore, ok_bind]
    rfl

/-- **Trees that can be opened are compared.** -/
theorem gotDiffTree_ok {tree1 tree2 : Option (List TreeEntry)} (hfuel : 0 < fuel)
    (h1 : FitsFuel diffContent fuel (tree1.getD []))
    (h2 : FitsFuel diffContent fuel (tree2.getD []))
    (label1 label2 : List Name) :
    ∃ calls, gotDiffTree diffContent fuel tree1 tree2 label1 label2 = .ok calls := by
  induction fuel generalizing tree1 tree2 label1 label2 with
  | zero => exact absurd hfuel (lt_irrefl 0)
  | succ fuel ih =>
    rw [gotDiffTree]
    refine diffTreeLoop_ok (fun te1 hte1 => ?_) fun te2 hte2 => ?_
    · unfold diffEntryOldNew
      split
      · exact ⟨[], rfl⟩
      cases hfind : treeFindEntry tree2 te1.name with
      | none =>
        dsimp only
        split
        · next hdir =>
          obtain ⟨es, hcheck, hopen, hpos, hfits⟩ := h1.directory hte1 hdir
          rw [diffDeletedTree, hcheck, ok_bind, hopen, ok_bind]
          exact @ih (some es) none hpos hfits FitsFuel.nil _ _
        · next hdir =>
          obtain ⟨blob, hblob⟩ := openBlob_ok diffContent (h1.blob hte1 hdir)
          exact ⟨_, by rw [diffDeletedBlob, hblob, ok_bind]; rfl⟩
      | some te2 =>
        rw [treeFindEntry_eq] at hfind
        obtain ⟨hte2, -⟩ := (findEntryByName_eq_some_iff h2.1).mp hfind
        dsimp only
        split
        · exact ⟨[], rfl⟩
        split
        · next hdirs =>
          obtain ⟨es1, hcheck1, hopen1, hpos, hfits1⟩ := h1.directory hte1 hdirs.1
          obtain ⟨es2, hcheck2, hopen2, -, hfits2⟩ := h2.directory hte2 hdirs.2.1
          rw [diffModifiedTree, hcheck1, ok_bind, hcheck2, ok_bind, hopen1, ok_bind, hopen2,
            ok_bind]
          exact @ih (some es1) (some es2) hpos hfits1 hfits2 _ _
        split
        · next hmod =>
          obtain ⟨-, hreg1, hreg2, -⟩ := hmod
          have hdir1 := (TreeEntry.not_dir_of_isRegOrLnk hreg1).1
          have hdir2 := (TreeEntry.not_dir_of_isRegOrLnk hreg2).1
          obtain ⟨⟨blob1, blob2⟩, hblobs⟩ := openModifiedBlobs_ok diffContent
            (h1.blob hte1 (by rw [hdir1]; exact Bool.false_ne_true))
            (h2.blob hte2 (by rw [hdir2]; exact Bool.false_ne_true))
          exact ⟨_, by rw [diffModifiedBlob, hblobs, ok_bind]; rfl⟩
        split
        · exact ⟨[], rfl⟩
        · exact ⟨[], rfl⟩
    · unfold diffEntryNewOld
      split
      · exact ⟨[], rfl⟩
      split
      · exact ⟨[], rfl⟩
      split
      · next hdir =>
        obtain ⟨es, hcheck, hopen, hpos, hfits⟩ := h2.directory hte2 hdir
        rw [diffAddedTree, hcheck, ok_bind, hopen, ok_bind]
        exact @ih none (some es) hpos FitsFuel.nil hfits _ _
      · next hdir =>
        obtain ⟨blob, hblob⟩ := openBlob_ok diffContent (h2.blob hte2 hdir)
        exact ⟨_, by rw [diffAddedBlob, hblob, ok_bind]; rfl⟩

/-! ## From one tree to the other -/

/-- The leaves of a tree, where a label is in front of their paths. -/
def leavesBelow (label : List Name) (tree : List TreeEntry) (path : List Name) : Option Leaf :=
  if label <+: path then leafAt tree (path.drop label.length) else none

/-- **A call as a change** of what is at its path. -/
def applyCall (leaves : List Name → Option Leaf) (c : DiffBlobCall) : List Name → Option Leaf :=
  fun path => if path = c.changedPath then c.new else leaves path

/-- **What the calls make of the first tree is the second one**, and each path is reported once
if there is a difference, and not at all otherwise. -/
structure Faithful (label : List Name) (tree1 tree2 : List TreeEntry)
    (calls : List DiffBlobCall) : Prop where
  transforms : calls.foldl applyCall (leavesBelow label tree1) = leavesBelow label tree2
  old : ∀ c ∈ calls, c.old = leavesBelow label tree1 c.changedPath
  once : ∀ path, leavesBelow label tree1 path ≠ leavesBelow label tree2 path →
    (calls.filter fun c => c.changedPath = path).length = 1
  minimal : ∀ path, leavesBelow label tree1 path = leavesBelow label tree2 path →
    ∀ c ∈ calls, c.changedPath ≠ path

theorem leavesBelow_append (label : List Name) (tree : List TreeEntry) (path : List Name) :
    leavesBelow label tree (label ++ path) = leafAt tree path := by
  rw [leavesBelow, if_pos (List.prefix_append _ _), List.drop_left]

/-- A path that no call names keeps its leaf. -/
theorem foldl_applyCall_of_nil {leaves : List Name → Option Leaf} {path : List Name}
    (h : calls.filter (fun c => c.changedPath = path) = []) :
    calls.foldl applyCall leaves path = leaves path := by
  induction calls generalizing leaves with
  | nil => rfl
  | cons c calls ih =>
    have hall := List.filter_eq_nil_iff.mp h
    have hc : path ≠ c.changedPath := fun heq =>
      hall c List.mem_cons_self (decide_eq_true heq.symm)
    rw [List.foldl_cons, ih (List.filter_eq_nil_iff.mpr fun d hd =>
      hall d (List.mem_cons_of_mem _ hd)), applyCall, if_neg hc]

/-- A path that one call names gets the leaf the call brings. -/
theorem foldl_applyCall_of_singleton {leaves : List Name → Option Leaf} {path : List Name}
    {c : DiffBlobCall} (h : calls.filter (fun c => c.changedPath = path) = [c]) :
    calls.foldl applyCall leaves path = c.new := by
  induction calls generalizing leaves with
  | nil => exact nomatch h
  | cons d calls ih =>
    rw [List.foldl_cons]
    by_cases hd : d.changedPath = path
    · rw [List.filter_cons_of_pos (by exact decide_eq_true hd)] at h
      rw [foldl_applyCall_of_nil (List.tail_eq_of_cons_eq h), applyCall, if_pos hd.symm,
        List.head_eq_of_cons_eq h]
    · rw [List.filter_cons_of_neg (by rwa [decide_eq_true_iff])] at h
      exact ih h

/-- The calls for a path. -/
theorem CallsReport.filter_eq (h : CallsReport label (reportAt tree1 tree2) calls)
    (path : List Name) :
    ((calls.filter fun c => c.changedPath = label ++ path) = []
        ∧ reportAt tree1 tree2 path = none)
      ∨ ∃ c, (calls.filter fun c => c.changedPath = label ++ path) = [c]
        ∧ c.old = leafAt tree1 path ∧ c.new = leafAt tree2 path ∧ c.old ≠ c.new
        ∧ (reportAt tree1 tree2 path).isSome := by
  have hfilter := h.filter path
  cases hreport : reportAt tree1 tree2 path with
  | none =>
    rw [hreport] at hfilter
    exact Or.inl ⟨List.map_eq_nil_iff.mp hfilter, rfl⟩
  | some report =>
    rw [hreport] at hfilter
    obtain ⟨c, hc, hchange⟩ := List.map_eq_singleton_iff.mp hfilter
    obtain ⟨hold, hnew, hne⟩ := reportAt_eq_some (hchange ▸ hreport)
    exact Or.inr ⟨c, hc, hold, hnew, hne, rfl⟩

/-- When every difference is reported, the calls turn the left tree into the right one. -/
theorem CallsReport.faithful (h : CallsReport label (reportAt tree1 tree2) calls)
    (hall : ∀ path, leafAt tree1 path ≠ leafAt tree2 path → (reportAt tree1 tree2 path).isSome) :
    Faithful label tree1 tree2 calls := by
  have hmem : ∀ c ∈ calls, ∃ path, c.changedPath = label ++ path ∧ c.old = leafAt tree1 path
      ∧ leafAt tree1 path ≠ leafAt tree2 path := by
    intro c hc
    obtain ⟨path, hpath⟩ := h.below c hc
    have hin : c ∈ calls.filter fun c => c.changedPath = label ++ path :=
      List.mem_filter.mpr ⟨hc, decide_eq_true hpath⟩
    rcases h.filter_eq path with ⟨hnil, -⟩ | ⟨d, hd, hold, hnew, hne, -⟩
    · rw [hnil] at hin
      exact absurd hin List.not_mem_nil
    · rw [hd] at hin
      obtain rfl := List.mem_singleton.mp hin
      exact ⟨path, hpath, hold, hold ▸ hnew ▸ hne⟩
  refine ⟨funext fun path => ?_, fun c hc => ?_, fun path hne => ?_, fun path heq c hc hpath => ?_⟩
  · by_cases hlabel : label <+: path
    · obtain ⟨path, rfl⟩ := hlabel
      rw [leavesBelow_append]
      rcases h.filter_eq path with ⟨hnil, hnone⟩ | ⟨c, hc, -, hnew, -⟩
      · rw [foldl_applyCall_of_nil hnil, leavesBelow_append]
        by_contra hne
        have := hall path hne
        rw [hnone] at this
        exact Bool.false_ne_true this
      · rw [foldl_applyCall_of_singleton hc, hnew]
    · have hnil : calls.filter (fun c => c.changedPath = path) = [] := by
        refine List.filter_eq_nil_iff.mpr fun c hc heq => hlabel ?_
        obtain ⟨path', hpath', -⟩ := hmem c hc
        rw [← of_decide_eq_true heq, hpath']
        exact List.prefix_append _ _
      rw [foldl_applyCall_of_nil hnil, leavesBelow, leavesBelow, if_neg hlabel, if_neg hlabel]
  · obtain ⟨path, hpath, hold, -⟩ := hmem c hc
    rw [hpath, leavesBelow_append, hold]
  · by_cases hlabel : label <+: path
    · obtain ⟨path, rfl⟩ := hlabel
      rw [leavesBelow_append, leavesBelow_append] at hne
      rcases h.filter_eq path with ⟨-, hnone⟩ | ⟨c, hc, -⟩
      · have := hall path hne
        rw [hnone] at this
        exact absurd this Bool.false_ne_true
      · rw [hc]
        rfl
    · rw [leavesBelow, leavesBelow, if_neg hlabel, if_neg hlabel] at hne
      exact absurd rfl hne
  · obtain ⟨path', hpath', -, hne⟩ := hmem c hc
    rw [← hpath, hpath', leavesBelow_append, leavesBelow_append] at heq
    exact hne heq

/-- **A comparison of trees without submodules** is faithful if and only if what is in both
trees can be compared. It does return if all that is compared is there. -/
theorem gotDiffTree_faithful_iff {id1 id2 : Object} (hopen1 : gotObjectOpenAsTree id1 = .ok tree1)
    (hopen2 : gotObjectOpenAsTree id2 = .ok tree2) (hsub1 : NoSubmodules tree1)
    (hsub2 : NoSubmodules tree2) (diffContent : Bool) (fuel : ℕ) (label : List Name) :
    (∀ calls, gotDiffTree diffContent fuel (some tree1) (some tree2) label label = .ok calls →
      (Faithful label tree1 tree2 calls ↔ SameKinds tree1 tree2))
      ∧ (Opens diffContent tree1 → Opens diffContent tree2 →
        (0 < fuel ∧ ∀ te ∈ tree1 ++ tree2, te.id.depth < fuel) →
        ∃ calls, gotDiffTree diffContent fuel (some tree1) (some tree2) label label
          = .ok calls) := by
  refine ⟨fun calls h => ?_, fun hopens1 hopens2 hfuel => ?_⟩
  · have hreport := gotDiffTree_spec diffContent fuel (some tree1)
      (some tree2) label label label calls
      (open_order hopen1) (open_order hopen2) (fun _ => rfl) (fun _ => rfl) h
    constructor
    · intro hfaithful path te1 te2 hte1 hte2
      refine comparable_of_reportAt (fun path hne => ?_) hte1 hte2
      have hone := hfaithful.once (label ++ path)
      rw [leavesBelow_append, leavesBelow_append] at hone
      rcases hreport.filter_eq path with ⟨hnil, -⟩ | ⟨c, -, -, -, -, hsome⟩
      · have := hone hne
        rw [hnil] at this
        exact nomatch this
      · exact hsome
    · intro hkinds
      exact hreport.faithful fun path hne => reportAt_isSome hsub1 hsub2 hkinds hne
  · refine gotDiffTree_ok hfuel.1 ⟨open_order hopen1, hopens1, fun te hte => ?_⟩
      ⟨open_order hopen2, hopens2, fun te hte => ?_⟩ label label
    · exact hfuel.2 te (List.mem_append_left _ hte)
    · exact hfuel.2 te (List.mem_append_right _ hte)

/-- Entries with nothing to be told of, and what is below them. -/
theorem NoSubmodules.of_entries (horder : NameOrder tree1)
    (h : ∀ te ∈ tree1, te.isSubmodule = false ∧ NoSubmodules te.entries) :
    NoSubmodules tree1 := by
  intro path te hte
  cases path with
  | nil => exact nomatch hte
  | cons n path =>
    cases path with
    | nil => exact (h te ((findEntryByName_eq_some_iff horder).mp hte).1).1
    | cons m path =>
      rw [entryAt_entries] at hte
      obtain ⟨dir, hfind, hte⟩ := Option.bind_eq_some_iff.mp hte
      exact (h dir ((findEntryByName_eq_some_iff horder).mp hfind).1).2 _ te hte

/-- Trees of the same kinds entry by entry are of the same kinds all the way down. -/
theorem SameKinds.of_entries (horder1 : NameOrder tree1) (horder2 : NameOrder tree2)
    (h : ∀ te1 ∈ tree1, ∀ te2 ∈ tree2, te1.name = te2.name →
      Comparable te1 te2 ∧ SameKinds te1.entries te2.entries) : SameKinds tree1 tree2 := by
  intro path te1 te2 hte1 hte2
  cases path with
  | nil => exact nomatch hte1
  | cons n path =>
    cases path with
    | nil =>
      obtain ⟨hmem1, hname1⟩ := (findEntryByName_eq_some_iff horder1).mp hte1
      obtain ⟨hmem2, hname2⟩ := (findEntryByName_eq_some_iff horder2).mp hte2
      exact (h te1 hmem1 te2 hmem2 (hname1.trans hname2.symm)).1
    | cons m path =>
      rw [entryAt_entries] at hte1 hte2
      obtain ⟨dir1, hfind1, hte1⟩ := Option.bind_eq_some_iff.mp hte1
      obtain ⟨dir2, hfind2, hte2⟩ := Option.bind_eq_some_iff.mp hte2
      obtain ⟨hmem1, hname1⟩ := (findEntryByName_eq_some_iff horder1).mp hfind1
      obtain ⟨hmem2, hname2⟩ := (findEntryByName_eq_some_iff horder2).mp hfind2
      exact (h dir1 hmem1 dir2 hmem2 (hname1.trans hname2.symm)).2 _ te1 te2 hte1 hte2

/-- A file of a tree. -/
def fileEntry (c : Char) (h : c ≠ '/') (content : Bytes) : TreeEntry :=
  ⟨GOT_DEFAULT_FILE_MODE, ⟨[c], List.cons_ne_nil _ _, fun hc => h (List.mem_singleton.mp hc).symm⟩,
    .blob content⟩

/-- A directory of a tree. -/
def dirEntry (c : Char) (h : c ≠ '/') (tree : List TreeEntry) : TreeEntry :=
  ⟨S_IFDIR, ⟨[c], List.cons_ne_nil _ _, fun hc => h (List.mem_singleton.mp hc).symm⟩,
    .tree (.ofList tree)⟩

theorem entries_of_default_mode (h : te.mode = GOT_DEFAULT_FILE_MODE) : te.entries = [] := by
  refine TreeEntry.entries_of_not_dir ?_
  rw [h]
  decide

/-- A tree of files has no submodules. -/
theorem noSubmodules_of_files (horder : NameOrder tree1)
    (h : ∀ te ∈ tree1, te.mode = GOT_DEFAULT_FILE_MODE) : NoSubmodules tree1 := by
  refine NoSubmodules.of_entries horder fun te hte => ⟨?_, ?_⟩
  · rw [TreeEntry.isSubmodule, h te hte]
    decide
  · rw [entries_of_default_mode (h te hte)]
    exact NoSubmodules.empty

theorem noSubmodules_fileEntry (c : Char) (h : c ≠ '/') (content : Bytes) :
    NoSubmodules [fileEntry c h content] :=
  noSubmodules_of_files (List.pairwise_singleton _ _) fun te hte => by
    rw [List.mem_singleton.mp hte]
    rfl

/-- Regular files can be compared. -/
theorem SameKinds.of_files (horder1 : NameOrder tree1) (horder2 : NameOrder tree2)
    (h1 : ∀ te ∈ tree1, te.mode = GOT_DEFAULT_FILE_MODE)
    (h2 : ∀ te ∈ tree2, te.mode = GOT_DEFAULT_FILE_MODE) : SameKinds tree1 tree2 := by
  refine SameKinds.of_entries horder1 horder2 fun te1 hte1 te2 hte2 _ => ⟨Or.inr ?_, ?_⟩
  · have hdir : ¬S_ISDIR GOT_DEFAULT_FILE_MODE := by decide
    have hreg : S_ISREG GOT_DEFAULT_FILE_MODE := by decide
    rw [Told, TreeEntry.isRegOrLnk, TreeEntry.isRegOrLnk, h1 te1 hte1, h2 te2 hte2]
    refine ⟨hdir, hdir, ?_⟩
    by_cases hid : te1.id = te2.id
    · exact Or.inl (by rw [hid])
    · exact Or.inr ⟨by simp [hreg], by simp [hreg], Or.inl hid⟩
  · rw [entries_of_default_mode (h1 te1 hte1)]
    exact fun path te1 te2 h => nomatch (entryAt_empty path).symm.trans h

namespace NestedTrees

/-- The files `a` and `b`. -/
def files1 : List TreeEntry := [fileEntry 'a' (by decide) [1], fileEntry 'b' (by decide) [2]]

/-- The file `a` with another content, and `c` in the place of `b`. -/
def files2 : List TreeEntry := [fileEntry 'a' (by decide) [3], fileEntry 'c' (by decide) [2]]

/-- A tree with the files in `d/e`, and a file beside `d`. -/
def treeOf (files : List TreeEntry) : List TreeEntry :=
  [dirEntry 'd' (by decide) [dirEntry 'e' (by decide) files], fileEntry 'z' (by decide) [5]]

theorem nameOrder_treeOf (files : List TreeEntry) : NameOrder (treeOf files) := by
  refine List.pairwise_pair.mpr ?_
  have hlt : (⟨['d'], by decide, by decide⟩ : Name) < ⟨['z'], by decide, by decide⟩ := by decide
  exact hlt

/-- The entries of a directory are those of its tree. -/
theorem entries_dirEntry {c : Char} {h : c ≠ '/'} {tree : List TreeEntry}
    (hopen : gotObjectOpenAsTree (.tree (.ofList tree)) = .ok tree) :
    (dirEntry c h tree).entries = tree := by
  refine TreeEntry.entries_eq_of_ok ?_ hopen
  show S_ISDIR S_IFDIR = true
  decide

theorem not_isSubmodule_dirEntry (c : Char) (h : c ≠ '/') (tree : List TreeEntry) :
    (dirEntry c h tree).isSubmodule = false := by
  show decide (S_IFDIR &&& S_IFMT = S_IFDIR ||| S_IFLNK) = false
  decide

/-- There are no submodules but among the files. -/
theorem noSubmodules_treeOf {files : List TreeEntry}
    (hopen : gotObjectOpenAsTree (.tree (.ofList files)) = .ok files)
    (h : NoSubmodules files) : NoSubmodules (treeOf files) := by
  have hdir : NoSubmodules [dirEntry 'e' (by decide) files] := by
    refine NoSubmodules.of_entries (List.pairwise_singleton _ _) fun te hte => ?_
    rw [List.mem_singleton.mp hte, entries_dirEntry hopen]
    exact ⟨not_isSubmodule_dirEntry _ _ _, h⟩
  refine NoSubmodules.of_entries (nameOrder_treeOf files) fun te hte => ?_
  rcases List.mem_pair.mp hte with rfl | rfl
  · rw [entries_dirEntry rfl]
    exact ⟨not_isSubmodule_dirEntry _ _ _, hdir⟩
  · have hmode : (fileEntry 'z' (by decide) [5]).mode = GOT_DEFAULT_FILE_MODE := rfl
    rw [entries_of_default_mode hmode]
    exact ⟨by decide, NoSubmodules.empty⟩

/-- The same directory in two trees can be compared when what is in it can. -/
theorem comparable_dirEntry {c : Char} {h : c ≠ '/'} {tree1 tree2 : List TreeEntry}
    (hopen1 : gotObjectOpenAsTree (.tree (.ofList tree1)) = .ok tree1)
    (hopen2 : gotObjectOpenAsTree (.tree (.ofList tree2)) = .ok tree2)
    (hkinds : SameKinds tree1 tree2) :
    Comparable (dirEntry c h tree1) (dirEntry c h tree2)
      ∧ SameKinds (dirEntry c h tree1).entries (dirEntry c h tree2).entries := by
  rw [entries_dirEntry hopen1, entries_dirEntry hopen2]
  refine ⟨Or.inl ?_, hkinds⟩
  show S_ISDIR S_IFDIR = true ∧ S_ISDIR S_IFDIR = true
  decide

/-- Directories can be compared, so it depends on the files in them. -/
theorem sameKinds_treeOf {files files' : List TreeEntry}
    (hopen : gotObjectOpenAsTree (.tree (.ofList files)) = .ok files)
    (hopen' : gotObjectOpenAsTree (.tree (.ofList files')) = .ok files')
    (h : SameKinds files files') : SameKinds (treeOf files) (treeOf files') := by
  have hdir : SameKinds [dirEntry 'e' (by decide) files] [dirEntry 'e' (by decide) files'] := by
    refine SameKinds.of_entries (List.pairwise_singleton _ _) (List.pairwise_singleton _ _)
      fun te1 hte1 te2 hte2 _ => ?_
    rw [List.mem_singleton.mp hte1, List.mem_singleton.mp hte2]
    exact comparable_dirEntry hopen hopen' h
  have hne : (⟨['d'], by decide, by decide⟩ : Name) ≠ ⟨['z'], by decide, by decide⟩ := by decide
  refine SameKinds.of_entries (nameOrder_treeOf files) (nameOrder_treeOf files')
    fun te1 hte1 te2 hte2 hname => ?_
  rcases List.mem_pair.mp hte1 with rfl | rfl <;> rcases List.mem_pair.mp hte2 with rfl | rfl
  · exact comparable_dirEntry rfl rfl hdir
  · exact absurd hname hne
  · exact absurd hname.symm hne
  · have hmode : (fileEntry 'z' (by decide) [5]).mode = GOT_DEFAULT_FILE_MODE := rfl
    refine ⟨Or.inr ⟨by decide, by decide, Or.inl rfl⟩, ?_⟩
    rw [entries_of_default_mode hmode]
    exact fun path te1 te2 h => nomatch (entryAt_empty path).symm.trans h

end NestedTrees

open NestedTrees in
/-- Two directories below, a file was modified, one was removed and one was added. -/
theorem gotDiffTree_faithful_iff_nested :
    ∃ calls, gotDiffTree true 3 (some (treeOf files1)) (some (treeOf files2)) [] [] = .ok calls
      ∧ calls.length = 3 ∧ Faithful [] (treeOf files1) (treeOf files2) calls := by
  have hb : (⟨['a'], by decide, by decide⟩ : Name) < ⟨['b'], by decide, by decide⟩ := by decide
  have hc : (⟨['a'], by decide, by decide⟩ : Name) < ⟨['c'], by decide, by decide⟩ := by decide
  have horder1 : NameOrder files1 := List.pairwise_pair.mpr hb
  have horder2 : NameOrder files2 := List.pairwise_pair.mpr hc
  have hmode1 : ∀ te ∈ files1, te.mode = GOT_DEFAULT_FILE_MODE := by decide
  have hmode2 : ∀ te ∈ files2, te.mode = GOT_DEFAULT_FILE_MODE := by decide
  have hkinds := sameKinds_treeOf rfl rfl (SameKinds.of_files horder1 horder2 hmode1 hmode2)
  have hiff := @gotDiffTree_faithful_iff _ _ (.tree (.ofList (treeOf files1)))
    (.tree (.ofList (treeOf files2))) rfl rfl
    (noSubmodules_treeOf rfl (noSubmodules_of_files horder1 hmode1))
    (noSubmodules_treeOf rfl (noSubmodules_of_files horder2 hmode2)) true 3 []
  exact ⟨_, rfl, rfl, (hiff.1 _ rfl).mpr hkinds⟩

/-- **A file that becomes a directory** is not reported. -/
theorem gotDiffTree_not_faithful : ¬ ∀ (id1 id2 : Object) (tree1 tree2 : List TreeEntry)
    (calls : List DiffBlobCall), gotObjectOpenAsTree id1 = .ok tree1 →
      gotObjectOpenAsTree id2 = .ok tree2 → NoSubmodules tree1 → NoSubmodules tree2 →
      gotDiffTree true 2 (some tree1) (some tree2) [] [] = .ok calls →
        Faithful [] tree1 tree2 calls := by
  intro h
  let file := fileEntry 'a' (by decide) [1]
  let dir : TreeEntry := { file with
    mode := S_IFDIR, id := .tree (.ofList [fileEntry 'b' (by decide) [1]]) }
  have hdir : NoSubmodules [dir] := by
    refine NoSubmodules.of_entries (List.pairwise_singleton _ _) fun te hte => ?_
    rw [List.mem_singleton.mp hte]
    have hentries : dir.entries = [fileEntry 'b' (by decide) [1]] :=
      TreeEntry.entries_eq_of_ok (by decide) rfl
    exact ⟨by decide, hentries ▸ noSubmodules_fileEntry _ _ _⟩
  have hnothing : gotDiffTree true 2 (some [file]) (some [dir]) [] [] = .ok [] := by
    decide +kernel
  have hfaithful := h (.tree (.ofList [file])) (.tree (.ofList [dir])) [file] [dir] [] rfl rfl
    (noSubmodules_fileEntry _ _ _) hdir hnothing
  have hpath : (leavesBelow [] [file] [file.name]) = leavesBelow [] [dir] [file.name] :=
    congrFun hfaithful.transforms [file.name]
  exact absurd hpath (by decide +kernel)

end Got

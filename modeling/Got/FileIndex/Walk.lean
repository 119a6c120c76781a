import Got.FileIndex.Index

/-!
# Walking over the file index

The file index is compared with a tree, or with a directory on disk, by walking
over it, and what the comparison finds is reported to callbacks, which change
the index on the way. A callback updates or removes the entry that is reported
to it, and adds new ones. None of this disturbs the walk (`Undisturbed`): an
entry that was removed stays in the tree, and entries that were added are
passed over.

So what the walk sees is settled at its beginning (`walked`). The first entry
is seen in any case. After that, all entries are passed over that are marked
for removal or not on disk, also if that was so before.
-/

namespace Got

open OrderedList

/-- **What a comparison reports**, and the directory in which it is at that
time: an entry of the file index, an item that is compared with it, or both. -/
inductive DiffReport (δ : Type)
  | oldNew (ie : ℕ) (item : δ) (path : List Name)
  | old (ie : ℕ) (path : List Name)
  | new (item : δ) (path : List Name)
  deriving DecidableEq

/-- The entry that is reported. -/
def DiffReport.entry? {δ : Type} : DiffReport δ → Option ℕ
  | .oldNew ie _ _ | .old ie _ => some ie
  | .new _ _ => none

/-- **What a callback does to the file index.** -/
inductive CallbackOp
  /-- The entry that is reported is updated. -/
  | mark (m : Mark)
  /-- The entry that is reported is removed. -/
  | remove
  /-- An entry is allocated, updated and added. -/
  | add (relpath : FilePath) (marks : List Mark)

/-- **The callbacks** of a comparison, given what was reported before. -/
abbrev DiffCb (δ : Type) :=
  List (DiffReport δ) → DiffReport δ → Fileindex → Except GotErr (List CallbackOp)

namespace Fileindex

/-- Allocate an entry, update it, and add it. -/
def addNew (fi : Fileindex) (relpath : FilePath) (marks : List Mark) : Fileindex :=
  ((fi.alloc (marks.foldl FileindexEntry.applyMark (FileindexEntry.alloc (relPath relpath.1))))
    |>.gotFileindexEntryAdd fi.heap.length).2

/-- What a callback may do to the entry it was called with: mark it, remove it, or add one of its
own. -/
def callbackStep (ie : Option ℕ) (fi : Fileindex) : CallbackOp → Fileindex
  | .mark m => ie.elim fi (fun ie => fi.step (.mark ie m))
  | .remove => ie.elim fi fi.gotFileindexEntryRemove
  | .add relpath marks => fi.addNew relpath marks

end Fileindex

/-- The file index in the course of a comparison, and what was reported. -/
structure WalkState (δ : Type) where
  fi : Fileindex
  reported : List (DiffReport δ)

/-- Report something to the callbacks. -/
def WalkState.report {δ : Type} (cb : DiffCb δ) (r : DiffReport δ) (s : WalkState δ) :
    Except GotErr (WalkState δ) := do
  let ops ← cb s.reported r s.fi
  return ⟨ops.foldl (Fileindex.callbackStep r.entry?) s.fi, s.reported ++ [r]⟩

/-- Report something to the callbacks, under a condition. -/
def WalkState.reportIf {δ : Type} (b : Bool) (cb : DiffCb δ) (r : DiffReport δ) (s : WalkState δ) :
    Except GotErr (WalkState δ) :=
  if b then s.report cb r else .ok s

namespace Fileindex

/-- Whether the walk passes over an entry. -/
def isSkipped (fi : Fileindex) (ie : ℕ) : Bool :=
  (fi.entry ie).hasFlag (GOT_FILEIDX_F_NOT_FLUSHED ||| GOT_FILEIDX_F_REMOVE_ON_FLUSH)

/-- **`walk_fileindex`**: the next entry that is not passed over. -/
def walkFileindex (fi : Fileindex) (ie : ℕ) : Option ℕ :=
  ((fi.entries.dropWhile (· ≠ ie)).drop 1).find? (fun next => ¬fi.isSkipped next)

/-- Walk to the first child of a path, which is at most `n` entries away. -/
def firstChild (fi : Fileindex) (path : Str) : ℕ → Option ℕ → Option ℕ
  | _, none => none
  | 0, some ie => some ie
  | n + 1, some ie =>
    if gotPathIsChild (fi.entry ie).path path then some ie
    else firstChild fi path n (fi.walkFileindex ie)

/-- **The entries that the walk sees**, from the first one on, which nothing
was asked about. -/
def walked (fi : Fileindex) : List ℕ :=
  match fi.entries with
  | [] => []
  | ie :: entries => ie :: entries.filter (fun ie => ¬fi.isSkipped ie)

/-- The entries that the walk sees if it begins with the first child of a
path. -/
def walkedFrom (fi : Fileindex) (path : Str) : List ℕ :=
  fi.walked.dropWhile (fun ie => ¬gotPathIsChild (fi.entry ie).path path)

variable {fi fi' fi'' : Fileindex} {ie : Option ℕ} {a : ℕ} {w : List ℕ}

/-! ## What callbacks leave as it is -/

/-- **The walk is not disturbed** by what is done to an entry that was reported:
the other entries are where they were, and what is new is passed over. -/
structure Undisturbed (ie : Option ℕ) (fi fi' : Fileindex) : Prop where
  ordered : Ordered fi'
  mem : ∀ a ∈ fi.entries, a ∈ fi'.entries
  path_eq : ∀ a ∈ fi.entries, (fi'.entry a).path = (fi.entry a).path
  isSkipped_eq : ∀ a ∈ fi.entries, ie ≠ some a → fi'.isSkipped a = fi.isSkipped a
  new : ∀ a ∈ fi'.entries, a ∉ fi.entries → fi'.isSkipped a = true

theorem Undisturbed.refl (h : Ordered fi) : Undisturbed ie fi fi :=
  ⟨h, fun _ ha => ha, fun _ _ => rfl, fun _ _ _ => rfl, fun _ ha hna => absurd ha hna⟩

/-- What two callbacks leave undisturbed one after the other is left undisturbed by both. -/
theorem Undisturbed.trans (h : Undisturbed ie fi fi') (h' : Undisturbed ie fi' fi'')
    (hie : ∀ a ∈ ie, a ∈ fi.entries) : Undisturbed ie fi fi'' where
  ordered := h'.ordered
  mem a ha := h'.mem a (h.mem a ha)
  path_eq a ha := (h'.path_eq a (h.mem a ha)).trans (h.path_eq a ha)
  isSkipped_eq a ha hne := (h'.isSkipped_eq a (h.mem a ha) hne).trans (h.isSkipped_eq a ha hne)
  new a ha hna := by
    by_cases hmem : a ∈ fi'.entries
    · have hne : ie ≠ some a := fun heq => hna (hie a heq)
      rw [h'.isSkipped_eq a hmem hne]
      exact h.new a hmem hna
    · exact h'.new a ha hmem

/-- A change of an entry that leaves its path as it was. -/
theorem undisturbed_setEntry {ie : ℕ} {e : FileindexEntry}
    (hpath : e.path = (fi.entry ie).path) (hordered : Ordered (fi.setEntry ie e)) :
    Undisturbed (some ie) fi (fi.setEntry ie e) where
  ordered := hordered
  mem _ ha := ha
  path_eq a _ := setEntry_congr FileindexEntry.path hpath a
  isSkipped_eq a _ hne := by
    have hne : a ≠ ie := fun heq => hne (congrArg some heq.symm)
    rw [isSkipped, isSkipped, entry_setEntry_of_ne hne]
  new _ ha hna := absurd ha hna

/-- What it is to add an entry. -/
theorem gotFileindexEntryAdd_spec (fi : Fileindex) (ie : ℕ) :
    (fi.gotFileindexEntryAdd ie).2.heap
        = (fi.setEntry ie ((fi.entry ie).setFlags GOT_FILEIDX_F_NOT_FLUSHED)).heap
      ∧ (∀ a ∈ fi.entries, a ∈ (fi.gotFileindexEntryAdd ie).2.entries)
      ∧ ∀ a ∈ (fi.gotFileindexEntryAdd ie).2.entries, a = ie ∨ a ∈ fi.entries := by
  rw [gotFileindexEntryAdd]
  split
  · exact ⟨rfl, fun _ ha => ha, fun _ ha => Or.inr ha⟩
  · next hadd =>
    unfold addEntry at hadd
    split at hadd
    · cases hadd
    · obtain rfl := Except.ok.inj hadd
      exact ⟨rfl, fun _ ha => mem_insertBy_of_mem ha, fun _ ha => eq_or_mem_of_mem_insertBy ha⟩

theorem kept_foldl_applyMark (marks : List Mark) (e : FileindexEntry) :
    (marks.foldl FileindexEntry.applyMark e).kept = e.kept := by
  induction marks generalizing e with
  | nil => rfl
  | cons m marks ih => exact (ih _).trans (FileindexEntry.kept_applyMark e m)

/-- An entry that is added is passed over. -/
theorem undisturbed_addNew (h : Ordered fi) (relpath : FilePath) (marks : List Mark) :
    Undisturbed ie fi (fi.addNew relpath marks) := by
  have hkept := kept_foldl_applyMark marks (FileindexEntry.alloc (relPath relpath.1))
  unfold addNew
  generalize marks.foldl FileindexEntry.applyMark (FileindexEntry.alloc (relPath relpath.1)) = e
    at hkept ⊢
  have he : e.IsEntry := (FileindexEntry.isEntry_alloc relpath).congr
    (FileindexEntry.path_eq_of_kept hkept) (FileindexEntry.pathLen_eq_of_kept hkept)
  have hlen : fi.heap.length < (fi.alloc e).heap.length := by
    show _ < (fi.heap ++ [e]).length
    rw [List.length_append]
    exact Nat.lt_succ_self _
  have hop : (fi.alloc e).Allocated (.add fi.heap.length) := hlen
  obtain ⟨hheap, hmem, hnew⟩ := gotFileindexEntryAdd_spec (fi.alloc e) fi.heap.length
  -- the entries that were there have other numbers
  have hentry : ∀ a ∈ fi.entries,
      ((fi.alloc e).gotFileindexEntryAdd fi.heap.length).2.entry a = fi.entry a := by
    intro a ha
    have hlt := h.valid a ha
    rw [entry, hheap]
    exact (entry_setEntry_of_ne (Nat.ne_of_lt hlt)).trans (entry_alloc_of_lt hlt)
  refine ⟨(h.alloc he).step hop, hmem, fun a ha => by rw [hentry a ha], fun a ha _ => ?_,
    fun a ha hna => ?_⟩
  · rw [isSkipped, isSkipped, hentry a ha]
  · obtain rfl := (hnew a ha).resolve_right hna
    rw [isSkipped, entry, hheap]
    show ((setEntry _ _ _).entry _).hasFlag _ = true
    rw [entry_setEntry_self hlen]
    exact FileindexEntry.hasFlag_setFlags_self _ (by decide)

/-- No callback disturbs the walk: the entries that are still to come stay where they are. -/
theorem undisturbed_callbackStep (h : Ordered fi) (hie : ∀ a ∈ ie, a ∈ fi.entries)
    (op : CallbackOp) : Undisturbed ie fi (callbackStep ie fi op) := by
  cases op with
  | mark m =>
    cases ie with
    | none => exact Undisturbed.refl h
    | some ie =>
      have hop : fi.Allocated (.mark ie m) := h.valid ie (hie ie rfl)
      exact undisturbed_setEntry
        (FileindexEntry.path_eq_of_kept (FileindexEntry.kept_applyMark (fi.entry ie) m))
        (h.step hop)
  | remove =>
    cases ie with
    | none => exact Undisturbed.refl h
    | some ie =>
      have hop : fi.Allocated (.remove ie) := h.valid ie (hie ie rfl)
      have hordered := h.step hop
      have hpath : ((fi.entry ie).setFlags GOT_FILEIDX_F_REMOVE_ON_FLUSH).path
        = (fi.entry ie).path :=
        rfl
      have hset := undisturbed_setEntry hpath (h.setEntry ie hpath (pathLen_setFlags (by decide) _))
      exact ⟨hordered, hset.mem, hset.path_eq, hset.isSkipped_eq, hset.new⟩
  | add relpath marks => exact undisturbed_addNew h relpath marks

/-- **Callbacks do not disturb the walk.** -/
theorem undisturbed_foldl (h : Ordered fi) (hie : ∀ a ∈ ie, a ∈ fi.entries)
    (ops : List CallbackOp) :
    Undisturbed ie fi (ops.foldl (callbackStep ie) fi) := by
  induction ops generalizing fi with
  | nil => exact Undisturbed.refl h
  | cons op ops ih =>
    have hstep := undisturbed_callbackStep h hie op
    exact hstep.trans (ih hstep.ordered fun a ha => hstep.mem a (hie a ha)) hie

/-! ## What the walk sees -/

/-- The entries that the walk sees after an entry. -/
def comingAfter (fi : Fileindex) (a : ℕ) : List ℕ :=
  fi.entries.filter (fun b => fi.key a < fi.key b ∧ fi.isSkipped b = false)

/-- **What is coming** on the walk, from an entry on. -/
def Coming (fi : Fileindex) : List ℕ → Prop
  | [] => True
  | a :: w => a ∈ fi.entries ∧ fi.comingAfter a = w

/-- Where an entry is in the tree. -/
theorem Ordered.split (h : Ordered fi) (ha : a ∈ fi.entries) :
    ∃ before behind, fi.entries = before ++ a :: behind
      ∧ (∀ b ∈ before, fi.key b < fi.key a) ∧ ∀ b ∈ behind, fi.key a < fi.key b := by
  obtain ⟨before, behind, hsplit⟩ := List.append_of_mem ha
  have hord := h.inOrder
  rw [OrderedList.InOrder, hsplit, List.pairwise_append, List.pairwise_cons] at hord
  exact ⟨before, behind, hsplit, fun b hb => hord.2.2 b hb a List.mem_cons_self, hord.2.1.1⟩

/-- The next entry of the walk is the first of those still to come. -/
theorem walkFileindex_eq (h : Ordered fi) (ha : a ∈ fi.entries) :
    fi.walkFileindex a = (fi.comingAfter a).head? := by
  obtain ⟨before, behind, hsplit, hbefore, hbehind⟩ := h.split ha
  have hne : ∀ b ∈ before, decide (b ≠ a) = true := fun b hb =>
    decide_eq_true fun heq => absurd (hbefore b hb) (heq ▸ lt_irrefl _)
  have hdrop : (fi.entries.dropWhile (· ≠ a)).drop 1 = behind := by
    rw [hsplit, List.dropWhile_append_of_pos hne, List.dropWhile_cons_of_neg (by simp)]
    rfl
  have hcoming : fi.comingAfter a = behind.filter (fun b => ¬fi.isSkipped b) := by
    have hnone : before.filter (fun b => fi.key a < fi.key b ∧ fi.isSkipped b = false) = [] :=
      List.filter_eq_nil_iff.mpr fun b hb => by simp [lt_asymm (hbefore b hb)]
    rw [comingAfter, hsplit, List.filter_append, hnone, List.nil_append,
      List.filter_cons_of_neg (by simp)]
    exact List.filter_congr fun b hb => by simp [hbehind b hb]
  rw [walkFileindex, hdrop, hcoming, List.head?_filter]

/-- What is coming is in order. -/
theorem Coming.inOrder (h : Ordered fi) (hw : Coming fi w) : OrderedList.InOrder fi.key w := by
  cases w with
  | nil => exact List.Pairwise.nil
  | cons a w =>
    obtain ⟨-, rfl⟩ := hw
    refine List.pairwise_cons.mpr ⟨fun b hb => ?_, h.inOrder.filter _⟩
    have hb := (List.mem_filter.mp hb).2
    simp only [decide_eq_true_eq] at hb
    exact hb.1

/-- What is still to come of a walk is in the index. -/
theorem Coming.mem (hw : Coming fi w) : ∀ b ∈ w, b ∈ fi.entries := by
  cases w with
  | nil => exact fun b hb => absurd hb List.not_mem_nil
  | cons a w =>
    obtain ⟨ha, rfl⟩ := hw
    intro b hb
    rcases List.mem_cons.mp hb with rfl | hb
    · exact ha
    · exact List.mem_of_mem_filter hb

/-- **One step of the walk.** -/
theorem Coming.next (h : Ordered fi) (hw : Coming fi (a :: w)) :
    fi.walkFileindex a = w.head? ∧ Coming fi w := by
  have hmem := hw.mem
  have hord := hw.inOrder h
  obtain ⟨ha, hcoming⟩ := hw
  refine ⟨by rw [walkFileindex_eq h ha, hcoming], ?_⟩
  cases w with
  | nil => trivial
  | cons b w =>
    refine ⟨hmem b (List.mem_cons_of_mem a List.mem_cons_self), ?_⟩
    obtain ⟨hab, hord⟩ := List.pairwise_cons.mp hord
    obtain ⟨hbw, -⟩ := List.pairwise_cons.mp hord
    have hlt := hab b List.mem_cons_self
    -- what comes after the next entry is what came after this one, without it
    have hfilter : fi.comingAfter b = (fi.comingAfter a).filter (fun c => fi.key b < fi.key c) := by
      rw [comingAfter, comingAfter, List.filter_filter]
      refine List.filter_congr fun c _ => ?_
      by_cases hbc : fi.key b < fi.key c
      · simp [hbc, hlt.trans hbc]
      · simp [hbc]
    rw [hfilter, hcoming, List.filter_cons_of_neg (by simp)]
    exact List.filter_eq_self.mpr fun c hc => by simpa using hbw c hc

/-- What is coming after some entries. -/
theorem Coming.of_append (h : Ordered fi) {v : List ℕ} (hw : Coming fi (v ++ w)) : Coming fi w := by
  induction v with
  | nil => exact hw
  | cons a v ih => exact ih (hw.next h).2

theorem Coming.dropWhile (h : Ordered fi) (hw : Coming fi w) (p : ℕ → Bool) :
    Coming fi (w.dropWhile p) := by
  rw [← List.takeWhile_append_dropWhile (p := p) (l := w)] at hw
  exact hw.of_append h

/-- **What is coming after the entry that is reported** is not disturbed. -/
theorem Coming.undisturbed (h : Ordered fi) (hw : Coming fi w) (hu : Undisturbed ie fi fi')
    (hie : ∀ a ∈ ie, w.head? = some a) : Coming fi' w := by
  cases w with
  | nil => trivial
  | cons a w =>
    obtain ⟨ha, hcoming⟩ := hw
    have hkey : ∀ b ∈ fi.entries, fi'.key b = fi.key b := fun b hb =>
      congrArg (pathKey MAX_PATH_LEN) (hu.path_eq b hb)
    refine ⟨hu.mem a ha, ?_⟩
    rw [← hcoming]
    have hord : OrderedList.InOrder fi'.key (fi'.comingAfter a) := hu.ordered.inOrder.filter _
    refine hord.ext ?_ fun b => ?_
    · refine List.Pairwise.imp_of_mem (fun hb hc hlt => ?_) (h.inOrder.filter _)
      rw [hkey _ (List.mem_of_mem_filter hb), hkey _ (List.mem_of_mem_filter hc)]
      exact hlt
    · have hskip : ∀ b ∈ fi.entries, fi.key a < fi.key b → fi'.isSkipped b = fi.isSkipped b := by
        intro b hb hlt
        refine hu.isSkipped_eq b hb fun heq => ?_
        obtain rfl := Option.some.inj (hie b heq)
        exact lt_irrefl _ hlt
      simp only [comingAfter, List.mem_filter, decide_eq_true_eq, hkey a ha]
      constructor
      · rintro ⟨hb, hlt, hnot⟩
        have hold : b ∈ fi.entries := by
          by_contra hna
          rw [hu.new b hb hna] at hnot
          exact nomatch hnot
        rw [hkey b hold] at hlt
        exact ⟨hold, hlt, hskip b hold hlt ▸ hnot⟩
      · rintro ⟨hb, hlt, hnot⟩
        exact ⟨hu.mem b hb, (hkey b hb).symm ▸ hlt, (hskip b hb hlt).trans hnot⟩

/-- At its start every entry of the walk is still to come. -/
theorem coming_walked (h : Ordered fi) :
    Coming fi fi.walked ∧ fi.walked.head? = fi.entries.head? := by
  have hord := h.inOrder
  unfold walked
  cases hentries : fi.entries with
  | nil => exact ⟨trivial, rfl⟩
  | cons a entries =>
    rw [hentries] at hord
    obtain ⟨hlt, -⟩ := List.pairwise_cons.mp hord
    refine ⟨⟨hentries ▸ List.mem_cons_self, ?_⟩, rfl⟩
    rw [comingAfter, hentries, List.filter_cons_of_neg (by simp)]
    exact List.filter_congr fun b hb => by simp [hlt b hb]

/-- **The walk to the first child.** -/
theorem firstChild_eq (h : Ordered fi) (hw : Coming fi w) {n : ℕ} (hn : w.length ≤ n) (path : Str) :
    firstChild fi path n w.head?
      = (w.dropWhile (fun ie => ¬gotPathIsChild (fi.entry ie).path path)).head? := by
  induction w generalizing n with
  | nil => cases n <;> rfl
  | cons a w ih =>
    obtain ⟨n, rfl⟩ : ∃ m, n = m + 1 := ⟨n - 1, by rw [List.length_cons] at hn; omega⟩
    obtain ⟨hnext, hw'⟩ := hw.next h
    rw [List.head?_cons, firstChild]
    by_cases hchild : gotPathIsChild (fi.entry a).path path
    · rw [if_pos hchild, List.dropWhile_cons_of_neg (by simpa using hchild), List.head?_cons]
    · rw [if_neg hchild, List.dropWhile_cons_of_pos (by simpa using hchild), hnext]
      exact ih hw' (Nat.le_of_succ_le_succ hn)

end Fileindex

end Got

import Mathlib.Data.List.GetD
import Got.FileIndex.Entry
import Got.Lib.OrderedList
import Got.Lib.Runs

/-!
# The file index in memory

The entries of a file index are kept in a search tree, in the order of their
paths. An entry that is removed stays in the tree, marked, until the index is
written, and a count of the entries that are not marked is kept beside the
tree.

The count is what goes wrong. An entry whose path is in the tree already is
not inserted, but it is counted, and the entry that is there may be one that is
marked: then the new entry is neither written nor found
(`readd_not_consistent`). `consistent_of_orderly` says that nothing else can
happen: as long as no path is added that is in the tree, marked or not, no
entry is removed twice, and paths fit into the bits for their length, the count
is that of the entries which are written, and each of them is found.
-/

namespace Got

open OrderedList

def INT_MAX : ℤ := 2 ^ 31 - 1

/-- **A file index**: the entries that were allocated, the tree from left to
right, and the count. A pointer to an entry is its number. -/
structure Fileindex where
  heap : List FileindexEntry
  entries : List ℕ
  nentries : ℤ
  deriving DecidableEq

namespace Fileindex

/-- `got_fileindex_alloc` -/
def empty : Fileindex := ⟨[], [], 0⟩

/-- The entry behind a pointer. -/
def entry (fi : Fileindex) (ie : ℕ) : FileindexEntry := fi.heap.getD ie { path := [] }

/-- Change the entry behind a pointer. -/
def setEntry (fi : Fileindex) (ie : ℕ) (e : FileindexEntry) : Fileindex :=
  { fi with heap := fi.heap.set ie e }

/-- Allocate an entry. -/
def alloc (fi : Fileindex) (e : FileindexEntry) : Fileindex := { fi with heap := fi.heap ++ [e] }

/-- The comparison of what two pointers point to. -/
def cmp (fi : Fileindex) (ie1 ie2 : ℕ) : Ordering := gotFileindexCmp (fi.entry ie1) (fi.entry ie2)

/-- **`add_entry`**. That an entry with the same path is in the tree already
makes no difference to the count. -/
def addEntry (fi : Fileindex) (ie : ℕ) : Except GotErr Fileindex :=
  if fi.nentries ≥ INT_MAX then .error .noSpace
  else .ok { fi with entries := insertBy fi.cmp ie fi.entries, nentries := fi.nentries + 1 }

/-- **`got_fileindex_entry_add`**. The entry is flagged even if it is not
added. -/
def gotFileindexEntryAdd (fi : Fileindex) (ie : ℕ) : Option GotErr × Fileindex :=
  let fi := fi.setEntry ie ((fi.entry ie).setFlags GOT_FILEIDX_F_NOT_FLUSHED)
  match fi.addEntry ie with
  | .error e => (some e, fi)
  | .ok fi' => (none, fi')

/-- One less than an `int`, as the machine computes it. -/
def pred (n : ℤ) : ℤ := if n = -2 ^ 31 then 2 ^ 31 - 1 else n - 1

/-- **`got_fileindex_entry_remove`**, which does not look whether the entry is
marked already. -/
def gotFileindexEntryRemove (fi : Fileindex) (ie : ℕ) : Fileindex :=
  { fi.setEntry ie ((fi.entry ie).setFlags GOT_FILEIDX_F_REMOVE_ON_FLUSH) with
    nentries := pred fi.nentries }

/-- The entry on the stack with which a path is looked up. -/
def lookupKey (path : Str) (pathLen : ℕ) : FileindexEntry :=
  { path := path, flags := pathLen.toUInt32 &&& GOT_FILEIDX_F_PATH_LEN }

/-- **`got_fileindex_entry_get`**. The length of a path is cut off to the bits
that there are for it. -/
def gotFileindexEntryGet (fi : Fileindex) (path : Str) (pathLen : ℕ) : Option ℕ :=
  match findBy (fun ie => gotFileindexCmp (lookupKey path pathLen) (fi.entry ie)) fi.entries with
  | none => none
  | some ie => if (fi.entry ie).removed then none else some ie

/-- The entries that are written when the index is flushed. -/
def live (fi : Fileindex) : List ℕ := fi.entries.filter (fun ie => ¬(fi.entry ie).removed)

end Fileindex

/-! ## Runs -/

/-- **An operation on a file index.** -/
inductive FileindexOp
  | alloc (relpath : FilePath)
  | add (ie : ℕ)
  | remove (ie : ℕ)
  | get (path : FilePath)
  | mark (ie : ℕ) (m : Mark)

namespace Fileindex

/-- One operation on the file index: a new entry, an entry added again, removed, marked or looked
up. -/
def step (fi : Fileindex) : FileindexOp → Fileindex
  | .alloc relpath => fi.alloc (FileindexEntry.alloc (relPath relpath.1))
  | .add ie => (fi.gotFileindexEntryAdd ie).2
  | .remove ie => fi.gotFileindexEntryRemove ie
  | .get _ => fi
  | .mark ie m => fi.setEntry ie ((fi.entry ie).applyMark m)

/-- An operation has pointers to what was allocated. -/
def Allocated (fi : Fileindex) : FileindexOp → Prop
  | .add ie | .remove ie | .mark ie _ => ie < fi.heap.length
  | _ => True

/-- **What the count relies on**: a path is only added if no entry in the tree
has it, marked or not, and an entry is only removed if it is in the tree and
was not removed before. A path has to fit into the bits for its length. -/
def Orderly (fi : Fileindex) : FileindexOp → Prop
  | .alloc _ => True
  | .add ie =>
    ie < fi.heap.length ∧ (fi.entry ie).removed = false ∧ (fi.entry ie).path.length ≤ MAX_PATH_LEN
      ∧ ∀ ie' ∈ fi.entries, (fi.entry ie').path ≠ (fi.entry ie).path
  | .remove ie => ie ∈ fi.entries ∧ (fi.entry ie).removed = false
  | .get path => (relPath path.1).length ≤ MAX_PATH_LEN
  | .mark ie _ => ie < fi.heap.length

instance (fi : Fileindex) : ∀ op, Decidable (fi.Allocated op)
  | .alloc _ | .get _ => inferInstanceAs (Decidable True)
  | .add ie | .remove ie | .mark ie _ => inferInstanceAs (Decidable (ie < fi.heap.length))

instance (fi : Fileindex) : ∀ op, Decidable (fi.Orderly op)
  | .alloc _ => inferInstanceAs (Decidable True)
  | .add ie => inferInstanceAs (Decidable (ie < fi.heap.length ∧ (fi.entry ie).removed = false
      ∧ (fi.entry ie).path.length ≤ MAX_PATH_LEN
      ∧ ∀ ie' ∈ fi.entries, (fi.entry ie').path ≠ (fi.entry ie).path))
  | .remove ie => inferInstanceAs (Decidable (ie ∈ fi.entries ∧ (fi.entry ie).removed = false))
  | .get path => inferInstanceAs (Decidable ((relPath path.1).length ≤ MAX_PATH_LEN))
  | .mark ie _ => inferInstanceAs (Decidable (ie < fi.heap.length))

/-- **The count and the lookups are right**: what is counted is what is
written, no two entries have the same path, and an entry is found by its path
exactly if it is written. -/
structure Consistent (fi : Fileindex) : Prop where
  nentries_eq : fi.nentries = fi.live.length
  paths_nodup : (fi.live.map (fun ie => (fi.entry ie).path)).Nodup
  get_eq_some_iff : ∀ path : FilePath, fi.Orderly (.get path) → ∀ ie,
    fi.gotFileindexEntryGet (relPath path.1) (relPath path.1).length = some ie
      ↔ ie ∈ fi.live ∧ (fi.entry ie).path = relPath path.1

/-! ## Pointers -/

variable {fi fi' : Fileindex} {ie ie' : ℕ} {e : FileindexEntry}

/-- The key of what a pointer points to. -/
def key (fi : Fileindex) (ie : ℕ) : List ℕ := (fi.entry ie).key

theorem entry_setEntry_of_ne (h : ie' ≠ ie) : (fi.setEntry ie e).entry ie' = fi.entry ie' := by
  rw [entry, setEntry, List.getD_eq_getElem?_getD, List.getElem?_set_ne (Ne.symm h)]
  exact (List.getD_eq_getElem?_getD).symm

theorem entry_setEntry_self (h : ie < fi.heap.length) : (fi.setEntry ie e).entry ie = e := by
  rw [entry, setEntry, List.getD_eq_getElem?_getD, List.getElem?_set_self h]
  rfl

/-- Setting an entry changes that entry only. -/
theorem entry_setEntry (fi : Fileindex) (ie : ℕ) (e : FileindexEntry) (ie' : ℕ) :
    (fi.setEntry ie e).entry ie' = fi.entry ie' ∨ ie' = ie ∧ (fi.setEntry ie e).entry ie' = e := by
  by_cases hne : ie' = ie
  · subst hne
    by_cases hlt : ie' < fi.heap.length
    · exact Or.inr ⟨rfl, entry_setEntry_self hlt⟩
    · refine Or.inl ?_
      rw [setEntry, List.set_eq_of_length_le (Nat.not_lt.mp hlt)]
  · exact Or.inl (entry_setEntry_of_ne hne)

theorem entry_alloc_of_lt (h : ie < fi.heap.length) : (fi.alloc e).entry ie = fi.entry ie := by
  rw [entry, alloc, List.getD_append _ _ _ _ h]
  rfl

/-- A change of an entry that leaves some part of it as it was leaves that part
of all entries as it was. -/
theorem setEntry_congr {β : Type} (f : FileindexEntry → β) (h : f e = f (fi.entry ie)) (ie' : ℕ) :
    f ((fi.setEntry ie e).entry ie') = f (fi.entry ie') := by
  rcases entry_setEntry fi ie e ie' with heq | ⟨rfl, heq⟩
  · rw [heq]
  · rw [heq, h]

/-- Wherever one looks in a heap of entries, there is an entry. -/
theorem isEntry_entry (h : ∀ e ∈ fi.heap, e.IsEntry) (ie : ℕ) : (fi.entry ie).IsEntry := by
  by_cases hlt : ie < fi.heap.length
  · refine h _ ?_
    rw [entry, List.getD_eq_getElem _ _ hlt]
    exact List.getElem_mem hlt
  · rw [entry, List.getD_eq_default _ _ (Nat.not_lt.mp hlt)]
    exact ⟨⟨[], rfl⟩, fun c hc => absurd hc List.not_mem_nil, rfl⟩

/-- The comparison of pointers is that of keys. -/
theorem comparesBy (h : ∀ e ∈ fi.heap, e.IsEntry) : ComparesBy fi.cmp fi.key where
  lt_iff {a b} := by
    rw [cmp, gotFileindexCmp_eq (isEntry_entry h a) (isEntry_entry h b)]
    exact linCmp_eq_lt_iff
  eq_iff {a b} := by
    rw [cmp, gotFileindexCmp_eq (isEntry_entry h a) (isEntry_entry h b)]
    exact linCmp_eq_eq_iff
  gt_iff {a b} := by
    rw [cmp, gotFileindexCmp_eq (isEntry_entry h a) (isEntry_entry h b)]
    exact linCmp_eq_gt_iff

/-! ## The tree is in order -/

/-- **What holds of every file index**: the tree is in the order of paths. -/
structure Ordered (fi : Fileindex) : Prop where
  isEntry : ∀ e ∈ fi.heap, e.IsEntry
  valid : ∀ ie ∈ fi.entries, ie < fi.heap.length
  inOrder : OrderedList.InOrder fi.key fi.entries
  le_nentries : -2 ^ 31 ≤ fi.nentries
  nentries_le : fi.nentries ≤ INT_MAX

/-- An empty index is in order. -/
theorem ordered_empty : Ordered empty where
  isEntry _ he := absurd he List.not_mem_nil
  valid _ he := absurd he List.not_mem_nil
  inOrder := List.Pairwise.nil
  le_nentries := by decide
  nentries_le := by decide

namespace Ordered

/-- A change of an entry that leaves its path as it was. -/
theorem setEntry (h : Ordered fi) (ie : ℕ) {e : FileindexEntry}
    (hpath : e.path = (fi.entry ie).path) (hlen : e.pathLen = (fi.entry ie).pathLen) :
    Ordered (fi.setEntry ie e) where
  isEntry e' he' := by
    rcases List.mem_or_eq_of_mem_set he' with hmem | rfl
    · exact h.isEntry e' hmem
    · exact (isEntry_entry h.isEntry ie).congr hpath hlen
  valid ie' hie' := (h.valid ie' hie').trans_eq List.length_set.symm
  inOrder := by
    have hkey : (fi.setEntry ie e).key = fi.key :=
      funext (setEntry_congr FileindexEntry.key (congrArg (pathKey MAX_PATH_LEN) hpath))
    rw [hkey]
    exact h.inOrder
  le_nentries := h.le_nentries
  nentries_le := h.nentries_le

/-- Allocating an entry keeps the index in order: the entry is in no list yet. -/
theorem alloc (h : Ordered fi) (he : e.IsEntry) : Ordered (fi.alloc e) where
  isEntry e' he' := by
    rcases List.mem_append.mp he' with hmem | hmem
    · exact h.isEntry e' hmem
    · exact List.mem_singleton.mp hmem ▸ he
  valid ie hie := by
    have hlt := h.valid ie hie
    show ie < (fi.heap ++ [e]).length
    rw [List.length_append]
    exact Nat.lt_add_right _ hlt
  inOrder := by
    refine List.Pairwise.imp_of_mem (fun {a b} ha hb hab => ?_) h.inOrder
    rw [key, key, entry_alloc_of_lt (h.valid a ha), entry_alloc_of_lt (h.valid b hb)]
    exact hab
  le_nentries := h.le_nentries
  nentries_le := h.nentries_le

/-- Adding an entry keeps the index in order. -/
theorem addEntry (h : Ordered fi) (hie : ie < fi.heap.length) (hadd : fi.addEntry ie = .ok fi') :
    Ordered fi' := by
  unfold Fileindex.addEntry at hadd
  split at hadd
  · exact nomatch hadd
  · next hlt =>
    have hlow := h.le_nentries
    have hsorted := h.inOrder.insertBy (comparesBy h.isEntry) ie
    rw [← Except.ok.inj hadd]
    refine ⟨h.isEntry, fun ie' hie' => ?_, hsorted, ?_, ?_⟩
    · rcases eq_or_mem_of_mem_insertBy hie' with rfl | hold
      · exact hie
      · exact h.valid ie' hold
    · show -2 ^ 31 ≤ fi.nentries + 1
      omega
    · show fi.nentries + 1 ≤ INT_MAX
      omega

end Ordered

/-- The flags that an entry gets when it is added or removed leave its path as
it is. -/
theorem pathLen_setFlags {f : UInt32} (hf : f &&& GOT_FILEIDX_F_PATH_LEN = 0) (e : FileindexEntry) :
    (e.setFlags f).pathLen = e.pathLen :=
  congrArg UInt32.toNat (or_and_of_disjoint e.flags hf)

/-- **Every operation keeps the tree in order.** -/
theorem Ordered.step (h : Ordered fi) {op : FileindexOp} (hop : fi.Allocated op) :
    Ordered (fi.step op) := by
  cases op with
  | alloc relpath => exact h.alloc (FileindexEntry.isEntry_alloc relpath)
  | add ie =>
    have hflag := h.setEntry ie (e := (fi.entry ie).setFlags GOT_FILEIDX_F_NOT_FLUSHED) rfl
      (pathLen_setFlags (by decide) _)
    rw [Fileindex.step, gotFileindexEntryAdd]
    split
    · exact hflag
    · next hadd => exact hflag.addEntry (hop.trans_eq List.length_set.symm) hadd
  | remove ie =>
    have hflag := h.setEntry ie (e := (fi.entry ie).setFlags GOT_FILEIDX_F_REMOVE_ON_FLUSH) rfl
      (pathLen_setFlags (by decide) _)
    have hlow := h.le_nentries
    have hhigh := h.nentries_le
    refine ⟨hflag.isEntry, hflag.valid, hflag.inOrder, ?_, ?_⟩
    · show -2 ^ 31 ≤ pred fi.nentries
      unfold pred
      split <;> omega
    · show pred fi.nentries ≤ INT_MAX
      unfold pred
      split
      · exact Int.le_refl _
      · omega
  | get path => exact h
  | mark ie m =>
    have hkept := FileindexEntry.kept_applyMark (fi.entry ie) m
    exact h.setEntry ie (FileindexEntry.path_eq_of_kept hkept)
      (FileindexEntry.pathLen_eq_of_kept hkept)

/-! ## The count -/

theorem mem_live : ie ∈ fi.live ↔ ie ∈ fi.entries ∧ (fi.entry ie).removed = false := by
  simp [live]

/-- Entries whose marks are the same are live in the same order. -/
theorem live_congr (hentries : fi'.entries = fi.entries)
    (hremoved : ∀ ie ∈ fi.entries, (fi'.entry ie).removed = (fi.entry ie).removed) :
    fi'.live = fi.live := by
  rw [live, live, hentries]
  exact List.filter_congr fun ie hie => by rw [hremoved ie hie]

/-- **What holds as long as operations are orderly**: paths fit, and the count
is that of the live entries. -/
structure Counted (fi : Fileindex) : Prop extends Ordered fi where
  short : ∀ ie ∈ fi.entries, (fi.entry ie).path.length ≤ MAX_PATH_LEN
  nentries_eq : fi.nentries = fi.live.length

theorem counted_empty : Counted empty :=
  ⟨ordered_empty, fun _ he => absurd he List.not_mem_nil, rfl⟩

namespace Counted

/-- Paths that fit are told apart by their keys. -/
theorem path_eq_of_key_eq (h : Counted fi) (hie : ie ∈ fi.entries) {path : Str}
    (hpath : path.length ≤ MAX_PATH_LEN) (hkey : fi.key ie = pathKey MAX_PATH_LEN path) :
    (fi.entry ie).path = path :=
  pathKey_inj (h.short ie hie) hpath hkey

/-- An entry that is allocated is not counted yet. -/
theorem alloc (h : Counted fi) (he : e.IsEntry) : Counted (fi.alloc e) := by
  refine ⟨h.toOrdered.alloc he, fun ie hie => ?_, ?_⟩
  · rw [entry_alloc_of_lt (h.valid ie hie)]
    exact h.short ie hie
  · have hlive : (fi.alloc e).live = fi.live :=
      live_congr rfl fun ie hie => congrArg _ (entry_alloc_of_lt (h.valid ie hie))
    rw [hlive]
    exact h.nentries_eq

/-- A change of an entry that is not about its path or its removal. -/
theorem setEntry (h : Counted fi) (hpath : e.path = (fi.entry ie).path)
    (hlen : e.pathLen = (fi.entry ie).pathLen) (hremoved : e.removed = (fi.entry ie).removed) :
    Counted (fi.setEntry ie e) := by
  refine ⟨h.toOrdered.setEntry ie hpath hlen, fun ie' hie' => ?_, ?_⟩
  · rw [setEntry_congr FileindexEntry.path hpath]
    exact h.short ie' hie'
  · have hlive : (fi.setEntry ie e).live = fi.live := live_congr rfl fun ie' _ =>
      setEntry_congr FileindexEntry.removed hremoved ie'
    rw [hlive]
    exact h.nentries_eq

/-- **An entry is added** to those that are live, if its path is new. -/
theorem addEntry (h : Counted fi) (hie : ie < fi.heap.length)
    (hlive : (fi.entry ie).removed = false) (hshort : (fi.entry ie).path.length ≤ MAX_PATH_LEN)
    (hnew : ∀ ie' ∈ fi.entries, (fi.entry ie').path ≠ (fi.entry ie).path)
    (hadd : fi.addEntry ie = .ok fi') : Counted fi' := by
  have hordered := h.toOrdered.addEntry hie hadd
  have hkey : ∀ ie' ∈ fi.entries, fi.key ie' ≠ fi.key ie := fun ie' hie' heq =>
    hnew ie' hie' (h.path_eq_of_key_eq hie' hshort heq)
  have hperm := perm_insertBy (comparesBy h.isEntry) hkey
  unfold Fileindex.addEntry at hadd
  split at hadd
  · exact nomatch hadd
  · obtain rfl := Except.ok.inj hadd
    refine ⟨hordered, fun ie' hie' => ?_, ?_⟩
    · rcases List.mem_cons.mp (hperm.mem_iff.mp hie') with rfl | hold
      · exact hshort
      · exact h.short ie' hold
    · have hfilter := (hperm.filter (fun ie' => ¬(fi.entry ie').removed)).length_eq
      rw [List.filter_cons_of_pos (by simpa using hlive), List.length_cons] at hfilter
      show fi.nentries + 1
        = ((insertBy fi.cmp ie fi.entries).filter (fun ie' => ¬(fi.entry ie').removed)).length
      rw [hfilter, h.nentries_eq]
      rfl

/-- **An entry is removed** from those that are live. -/
theorem remove (h : Counted fi) (hie : ie ∈ fi.entries) (hlive : (fi.entry ie).removed = false) :
    Counted (fi.gotFileindexEntryRemove ie) := by
  have hallocated : fi.Allocated (.remove ie) := h.valid ie hie
  have hordered : Ordered (fi.gotFileindexEntryRemove ie) := h.toOrdered.step hallocated
  refine ⟨hordered, fun ie' hie' => ?_, ?_⟩
  · have hflag : ((fi.entry ie).setFlags GOT_FILEIDX_F_REMOVE_ON_FLUSH).path = (fi.entry ie).path :=
      rfl
    have hpath : ((fi.gotFileindexEntryRemove ie).entry ie').path = (fi.entry ie').path :=
      setEntry_congr FileindexEntry.path hflag ie'
    rw [hpath]
    exact h.short ie' hie'
  · have hnodup : fi.entries.Nodup := List.Nodup.of_map _ h.inOrder.nodup_map
    have hmarked : ((fi.gotFileindexEntryRemove ie).entry ie).removed = true :=
      (congrArg _ (entry_setEntry_self (h.valid ie hie))).trans
      (FileindexEntry.hasFlag_setFlags_self _ (by decide))
    have hcount : fi.live.length = (fi.gotFileindexEntryRemove ie).live.length + 1 := by
      refine length_filter_of_flip hnodup hie (by simpa using hlive) (by simpa using hmarked) ?_
      intro ie' _ hne
      have hentry : (fi.gotFileindexEntryRemove ie).entry ie' = fi.entry ie' :=
        entry_setEntry_of_ne hne
      rw [hentry]
    have hpred : pred fi.nentries = fi.nentries - 1 := if_neg (by rw [h.nentries_eq]; omega)
    show pred fi.nentries = _
    rw [hpred, h.nentries_eq, hcount]
    omega

/-- Every orderly operation keeps the count in step with the entries. -/
theorem step (h : Counted fi) {op : FileindexOp} (hop : fi.Orderly op) : Counted (fi.step op) := by
  cases op with
  | alloc relpath => exact h.alloc (FileindexEntry.isEntry_alloc relpath)
  | add ie =>
    obtain ⟨hie, hlive, hshort, hnew⟩ := hop
    have hpath : ((fi.entry ie).setFlags GOT_FILEIDX_F_NOT_FLUSHED).path = (fi.entry ie).path := rfl
    have hremoved : ((fi.entry ie).setFlags GOT_FILEIDX_F_NOT_FLUSHED).removed
        = (fi.entry ie).removed := FileindexEntry.hasFlag_setFlags _ (by decide)
    have hflag := h.setEntry hpath (pathLen_setFlags (by decide) _) hremoved
    have hpath := setEntry_congr FileindexEntry.path hpath
    have hremoved := setEntry_congr FileindexEntry.removed hremoved
    rw [Fileindex.step, gotFileindexEntryAdd]
    split
    · exact hflag
    · next hadd =>
      refine hflag.addEntry (hie.trans_eq List.length_set.symm) ?_ ?_ (fun ie' hie' => ?_) hadd
      · rw [hremoved, hlive]
      · rw [hpath]
        exact hshort
      · rw [hpath, hpath]
        exact hnew ie' hie'
  | remove ie => exact h.remove hop.1 hop.2
  | get path => exact h
  | mark ie m =>
    have hkept := FileindexEntry.kept_applyMark (fi.entry ie) m
    exact h.setEntry (FileindexEntry.path_eq_of_kept hkept)
      (FileindexEntry.pathLen_eq_of_kept hkept) (FileindexEntry.removed_eq_of_kept hkept)

end Counted

/-! ## Lookups -/

/-- The key of a lookup is a key an entry can have, if the path is short enough. -/
theorem isEntry_lookupKey {path : FilePath} (h : (relPath path.1).length ≤ MAX_PATH_LEN) :
    (lookupKey (relPath path.1) (relPath path.1).length).IsEntry where
  names := ⟨path.1, rfl⟩
  bytes := path.2.2
  pathLen_eq := by
    have hmask : (lookupKey (relPath path.1) (relPath path.1).length).pathLen
        = (relPath path.1).length.toUInt32.toNat % 2 ^ 12 := by
      show ((_ &&& GOT_FILEIDX_F_PATH_LEN) &&& GOT_FILEIDX_F_PATH_LEN : UInt32).toNat = _
      rw [UInt32.and_assoc, UInt32.and_self, UInt32.toNat_and]
      exact Nat.and_two_pow_sub_one_eq_mod _ 12
    have hlen : (relPath path.1).length.toUInt32.toNat = (relPath path.1).length :=
      Nat.mod_eq_of_lt (lt_of_le_of_lt h (by decide))
    rw [hmask, hlen, Nat.mod_eq_of_lt (lt_of_le_of_lt h (by decide))]
    exact (Nat.min_eq_left h).symm

/-- A counted index is consistent: count and lookup follow from the list of its entries. -/
theorem Counted.consistent (h : Counted fi) : Consistent fi where
  nentries_eq := h.nentries_eq
  paths_nodup := by
    refine List.Nodup.of_map (pathKey MAX_PATH_LEN) ?_
    rw [List.map_map]
    exact (h.inOrder.filter _).nodup_map
  get_eq_some_iff path hpath ie := by
    have hfind : ∀ ie', gotFileindexCmp (lookupKey (relPath path.1) (relPath path.1).length)
        (fi.entry ie') = .eq ↔ pathKey MAX_PATH_LEN (relPath path.1) = fi.key ie' := by
      intro ie'
      rw [gotFileindexCmp_eq (isEntry_lookupKey hpath) (isEntry_entry h.isEntry ie')]
      exact linCmp_eq_eq_iff
    have hfound := fun ie' => findBy_eq_some_iff (b := ie') hfind h.inOrder
    rw [mem_live]
    unfold gotFileindexEntryGet
    split
    · next hnone =>
      refine ⟨fun h => (nomatch h), fun ⟨⟨hie, _⟩, heq⟩ => ?_⟩
      have hsome := (hfound ie).mpr ⟨hie, congrArg (pathKey MAX_PATH_LEN) heq⟩
      exact absurd hsome (by rw [hnone]; exact fun h => (nomatch h))
    · next ie' hsome =>
      obtain ⟨hie', hkey⟩ := (hfound ie').mp hsome
      have hpath' := h.path_eq_of_key_eq hie' hpath hkey
      -- another entry with this path would have the same key
      have hunique : ie ∈ fi.entries → (fi.entry ie).path = relPath path.1 → ie' = ie :=
        fun hie heq =>
        h.inOrder.key_inj hie' hie (hkey.trans (congrArg (pathKey MAX_PATH_LEN) heq).symm)
      split
      · next hmarked =>
        refine ⟨fun h => (nomatch h), fun ⟨⟨hie, hlive⟩, heq⟩ => ?_⟩
        rw [hunique hie heq, hlive] at hmarked
        exact nomatch hmarked
      · next hlive =>
        constructor
        · intro heq
          obtain rfl := Option.some.inj heq
          exact ⟨⟨hie', by simpa using hlive⟩, hpath'⟩
        · rintro ⟨⟨hie, -⟩, heq⟩
          rw [hunique hie heq]

/-- **As long as operations are orderly, the index is consistent**, after any number of them. The
invariant behind it is `Counted`, which every orderly operation keeps. An entry whose path is in the
tree already is counted although it is not inserted, which is why to add it is no orderly operation.
-/
theorem consistent_of_orderly (ops : List FileindexOp)
    (h : Runs.Meets step Orderly empty ops) : Consistent (Runs.run step empty ops) :=
  (h.invariant counted_empty fun _ _ hs hop => Counted.step hs hop).consistent

/-! ## A path that is added again -/

/-- A file in the root of the work tree. -/
def aPath : FilePath :=
  ⟨[⟨['a'], isName_a⟩], List.cons_ne_nil _ _, by simp [relPath, slashed]⟩

/-- A file in a directory. -/
def abPath : FilePath :=
  ⟨[⟨['a'], isName_a⟩, ⟨['b'], isName_b⟩], List.cons_ne_nil _ _, by simp [relPath, slashed]⟩

/-- Two files are added, one of them is looked up and removed, and the other
one is staged. -/
def orderlyOps : List FileindexOp :=
  [.alloc abPath, .add 0, .alloc aPath, .add 1, .get aPath, .remove 1,
    .mark 0 (.stage GOT_FILEIDX_STAGE_ADD)]

/-- An orderly run. -/
theorem orderlyOps_consistent : Consistent (Runs.run step empty orderlyOps) :=
  consistent_of_orderly orderlyOps (by decide +kernel)

/-- A file is removed, and added again before the index is written. -/
def readdOps : List FileindexOp := [.alloc aPath, .add 0, .remove 0, .alloc aPath, .add 1]

/-- **The new entry is counted, but neither written nor found.** -/
theorem readd_not_consistent :
    ¬∀ ops, Runs.Meets step Allocated empty ops → Consistent (Runs.run step empty ops) := by
  intro h
  have hcount := (h readdOps (by decide +kernel)).nentries_eq
  exact absurd hcount (by decide +kernel)

end Fileindex

end Got

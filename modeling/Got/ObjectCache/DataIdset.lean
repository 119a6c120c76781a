import Mathlib.Data.Set.Card
import Got.CommitGraph.Idset
import Got.Lib.Runs

/-!
# Sets of object ids with data

The elements of a set of object ids have data of their own. Without them, they are the sets that
the commit graph uses (`ids_add`, `ids_remove`).

A set is to be a finite map from ids to data, whose size is the count. The count goes up whenever
something is added, but the tree takes only what is not in it. So a set is a map, with the count of
its ids, all along a run if and only if no id is added that is there (`forall_isMap_iff`).

Something can be removed without saying what. That is the root of the tree, which depends on how the
tree was balanced, so it can be any element.
-/

namespace Got

open OrderedList

variable {ι δ : Type} [LinearOrder ι]

/-- **A set of object ids with data**: what is in the tree, from left to right, and the count. -/
structure DataIdset (ι δ : Type) [LinearOrder ι] where
  entries : List (ι × δ)
  totelem : ℕ
  inOrder : OrderedList.InOrder Prod.fst entries

/-- `cmp_elements` -/
def cmpElements (e1 e2 : ι × δ) : Ordering := linCmp e1.1 e2.1

theorem comparesBy_cmpElements : ComparesBy (cmpElements : ι × δ → ι × δ → Ordering) Prod.fst where
  lt_iff := linCmp_eq_lt_iff
  eq_iff := linCmp_eq_eq_iff
  gt_iff := linCmp_eq_gt_iff

namespace DataIdset

/-- `got_object_idset_alloc` -/
def alloc : DataIdset ι δ := ⟨[], 0, List.Pairwise.nil⟩

/-- **`got_object_idset_add`**. What `RB_INSERT` says of an id that is there is not looked at. -/
def add (set : DataIdset ι δ) (id : ι) (data : δ) : Except GotErr (DataIdset ι δ) :=
  if set.totelem ≥ GOT_OBJECT_IDSET_MAX_ELEM then .error .noSpace
  else .ok ⟨insertBy cmpElements (id, data) set.entries, set.totelem + 1,
    set.inOrder.insertBy comparesBy_cmpElements (id, data)⟩

/-- `find_element` -/
def findElement (set : DataIdset ι δ) (id : ι) : Option (ι × δ) :=
  findBy (fun entry => linCmp id entry.1) set.entries

/-- `got_object_idset_get` -/
def get (set : DataIdset ι δ) (id : ι) : Option δ := (set.findElement id).map Prod.snd

/-- `got_object_idset_contains` -/
def contains (set : DataIdset ι δ) (id : ι) : Bool := (set.findElement id).isSome

/-- `RB_ROOT`, of a tree which is balanced in some way. -/
def root (set : DataIdset ι δ) (balance : ℕ) : Option (ι × δ) :=
  set.entries[balance % set.entries.length]?

/-- `RB_REMOVE` -/
def removeEntry (set : DataIdset ι δ) (entry : ι × δ) : DataIdset ι δ :=
  ⟨set.entries.filter (·.1 ≠ entry.1), set.totelem - 1, set.inOrder.filter _⟩

/-- **`got_object_idset_remove`**, of some id or of the root. If there is no root, the id that is
not there is dereferenced for the text of the error. -/
def remove (set : DataIdset ι δ) (id : Option ι) (balance : ℕ) :
    Except GotErr ((ι × δ) × DataIdset ι δ) :=
  if set.totelem = 0 then .error .noObj
  else
    match id with
    | none =>
      match set.root balance with
      | some entry => .ok (entry, set.removeEntry entry)
      | none => .error .outOfMap
    | some id =>
      match set.findElement id with
      | some entry => .ok (entry, set.removeEntry entry)
      | none => .error .noObj

/-- `got_object_idset_for_each` -/
def forEach {σ : Type} (set : DataIdset ι δ) (cb : ι → δ → σ → Except GotErr σ) (arg : σ) :
    Except GotErr σ :=
  set.entries.foldlM (fun arg entry => cb entry.1 entry.2 arg) arg

/-- `got_object_idset_num_elements` -/
def numElements (set : DataIdset ι δ) : ℕ := set.totelem

variable {set set' : DataIdset ι δ} {id x : ι} {data d : δ} {entry : ι × δ} {balance : ℕ}

/-! ## The ids -/

/-- The ids of a set. -/
def ids (set : DataIdset ι δ) : ObjectIdset ι :=
  ⟨set.entries.map Prod.fst, set.totelem, List.pairwise_map.mpr set.inOrder⟩

/-- Inserting an entry inserts its id. -/
theorem map_fst_insertBy (e : ι × δ) (entries : List (ι × δ)) :
    (insertBy cmpElements e entries).map Prod.fst = insertBy linCmp e.1 (entries.map Prod.fst) := by
  induction entries with
  | nil => rfl
  | cons b entries ih =>
    rw [insertBy, List.map_cons, insertBy, cmpElements]
    cases linCmp e.1 b.1 with
    | lt => rfl
    | eq => rfl
    | gt => exact congrArg (b.1 :: ·) ih

/-- Adding is what it is for sets without data. -/
theorem ids_add (set : DataIdset ι δ) (id : ι) (data : δ) :
    (set.add id data).map ids = set.ids.add id := by
  have hmap := map_fst_insertBy (id, data) set.entries
  unfold add ObjectIdset.add
  by_cases hroom : set.totelem ≥ GOT_OBJECT_IDSET_MAX_ELEM
  · rw [if_pos hroom, if_pos (show set.ids.totelem ≥ GOT_OBJECT_IDSET_MAX_ELEM from hroom)]
    rfl
  · rw [if_neg hroom, if_neg (show ¬set.ids.totelem ≥ GOT_OBJECT_IDSET_MAX_ELEM from hroom)]
    unfold ids
    simp only [Except.map, hmap]

theorem findElement_eq_some_iff :
    set.findElement id = some entry ↔ entry ∈ set.entries ∧ entry.1 = id :=
  findBy_eq_some_iff (fun _ => linCmp_eq_eq_iff) set.inOrder

/-- What is got for an id is what is stored with it. -/
theorem get_eq_some_iff : set.get id = some data ↔ (id, data) ∈ set.entries := by
  rw [get, Option.map_eq_some_iff]
  constructor
  · rintro ⟨entry, hfind, rfl⟩
    obtain ⟨hmem, rfl⟩ := findElement_eq_some_iff.mp hfind
    exact hmem
  · exact fun hmem => ⟨(id, data), findElement_eq_some_iff.mpr ⟨hmem, rfl⟩, rfl⟩

theorem contains_eq (set : DataIdset ι δ) (id : ι) : set.contains id = (set.get id).isSome :=
  Option.isSome_map.symm

/-- A set has an id if the id is among its keys. -/
theorem contains_iff_mem_ids : set.contains id = true ↔ id ∈ set.ids := by
  rw [contains_eq, Option.isSome_iff_exists, ObjectIdset.mem_def, ids, List.mem_map]
  constructor
  · rintro ⟨data, hdata⟩
    exact ⟨(id, data), get_eq_some_iff.mp hdata, rfl⟩
  · rintro ⟨entry, hmem, rfl⟩
    exact ⟨entry.2, get_eq_some_iff.mpr hmem⟩

/-! ## Maps -/

/-- **What a set is for**: it is a finite map, and knows its size. -/
structure IsMap (set : DataIdset ι δ) (m : ι → Option δ) : Prop where
  numElements_eq : set.numElements = Set.ncard {id | (m id).isSome = true}
  contains_eq : ∀ id, set.contains id = (m id).isSome
  get_eq : ∀ id, set.get id = m id
  /-- Each id is visited once. -/
  visits : ∃ visited : List (ι × δ),
    set.forEach (fun id data visited => .ok (visited ++ [(id, data)])) [] = .ok visited
      ∧ (visited.map Prod.fst).Nodup ∧ ∀ id data, (id, data) ∈ visited ↔ m id = some data

/-- A visit of everything. -/
theorem forEach_collect (set : DataIdset ι δ) :
    set.forEach (fun id data visited => .ok (visited ++ [(id, data)])) [] = .ok set.entries := by
  have hfold : ∀ (entries visited : List (ι × δ)), entries.foldlM (fun visited entry =>
      (.ok (visited ++ [(entry.1, entry.2)]) : Except GotErr _)) visited
        = .ok (visited ++ entries) := by
    intro entries
    induction entries with
    | nil => exact fun visited => congrArg Except.ok (List.append_nil visited).symm
    | cons entry entries ih =>
      intro visited
      rw [List.foldlM_cons, ok_bind, ih, List.append_assoc, List.singleton_append]
  exact hfold set.entries []

/-- There are as many ids with data as there are entries. -/
theorem ncard_get (set : DataIdset ι δ) :
    Set.ncard {id | (set.get id).isSome = true} = set.entries.length := by
  have hset : {id | (set.get id).isSome = true}
      = ((set.entries.map Prod.fst).toFinset : Set ι) := by
    ext id
    rw [Set.mem_ofPred_eq, ← contains_eq, contains_iff_mem_ids, Finset.mem_coe, List.mem_toFinset]
    exact ObjectIdset.mem_def
  rw [hset, Set.ncard_coe_finset, List.toFinset_card_of_nodup set.inOrder.nodup_map,
    List.length_map]

theorem counted_ids_iff : set.ids.Counted ↔ set.totelem = set.entries.length := by
  rw [ObjectIdset.Counted, ids, List.length_map]

/-- **A set is a map** if its count is right and each id has its data. -/
theorem isMap_iff {m : ι → Option δ} : set.IsMap m ↔ set.ids.Counted ∧ set.get = m := by
  rw [counted_ids_iff]
  constructor
  · intro h
    obtain rfl : set.get = m := funext h.get_eq
    exact ⟨h.numElements_eq.trans set.ncard_get, rfl⟩
  · rintro ⟨hcount, rfl⟩
    exact ⟨hcount.trans set.ncard_get.symm, set.contains_eq, fun _ => rfl,
      set.entries, set.forEach_collect, set.inOrder.nodup_map, fun _ _ => get_eq_some_iff.symm⟩

/-! ## One operation -/

theorem add_eq_error (hfull : set.numElements ≥ GOT_OBJECT_IDSET_MAX_ELEM) (id : ι) (data : δ) :
    set.add id data = .error .noSpace := if_pos hfull

theorem exists_add (hroom : ¬set.numElements ≥ GOT_OBJECT_IDSET_MAX_ELEM) (id : ι) (data : δ) :
    ∃ set', set.add id data = .ok set' := ⟨_, if_neg hroom⟩

/-- **What is added is found** if its id was not there. -/
theorem get_add (h : set.add id data = .ok set') (hnew : set.contains id = false) :
    set'.get = Function.update set.get id (some data) := by
  have hno : ∀ e ∈ set.entries, e.1 ≠ id := by
    rintro ⟨_, d⟩ hmem rfl
    rw [contains_eq, get_eq_some_iff.mpr hmem] at hnew
    cases hnew
  have hperm : set'.entries.Perm ((id, data) :: set.entries) := by
    unfold add at h
    split at h
    · cases h
    · cases h
      exact perm_insertBy comparesBy_cmpElements hno
  refine funext fun x => Option.ext fun d => ?_
  rw [get_eq_some_iff, hperm.mem_iff, List.mem_cons, Prod.mk.injEq]
  by_cases hx : x = id
  · rw [hx, Function.update_self, and_iff_right rfl, Option.some.injEq, eq_comm]
    exact or_iff_left fun hmem => hno _ hmem rfl
  · rw [Function.update_of_ne hx, get_eq_some_iff]
    exact or_iff_right fun heq => hx heq.1

/-- An id that is there is counted, and that is all. -/
theorem add_present (h : set.add id data = .ok set') (hid : set.contains id = true) :
    set'.entries = set.entries ∧ set'.totelem = set.totelem + 1 := by
  rw [contains_eq] at hid
  obtain ⟨d, hd⟩ := Option.isSome_iff_exists.mp hid
  unfold add at h
  split at h
  · cases h
  · cases h
    exact ⟨insertBy_of_mem comparesBy_cmpElements set.inOrder (get_eq_some_iff.mp hd) rfl, rfl⟩

/-- An id that is new keeps the count right. -/
theorem counted_add (h : set.add id data = .ok set') (hnew : set.contains id = false)
    (hcount : set.ids.Counted) : set'.ids.Counted := by
  have hids : set.ids.add id = .ok set'.ids := by
    rw [← set.ids_add id data, h]
    rfl
  exact hcount.add hids fun hmem =>
    Bool.false_ne_true (hnew.symm.trans (contains_iff_mem_ids.mpr hmem))

/-- What is removed was there. -/
theorem remove_eq_ok {o : Option ι} (h : set.remove o balance = .ok (entry, set')) :
    entry ∈ set.entries ∧ set' = set.removeEntry entry := by
  unfold remove at h
  split at h
  · cases h
  · cases o with
    | none =>
      cases hroot : set.root balance with
      | none => rw [hroot] at h; cases h
      | some e =>
        rw [hroot] at h
        cases h
        exact ⟨List.mem_of_getElem? hroot, rfl⟩
    | some id =>
      dsimp only at h
      cases hfind : set.findElement id with
      | none => rw [hfind] at h; cases h
      | some e =>
        rw [hfind] at h
        cases h
        exact ⟨(findElement_eq_some_iff.mp hfind).1, rfl⟩

/-- Removing an entry takes its id out of the map and nothing else. -/
theorem get_removeEntry (set : DataIdset ι δ) (entry : ι × δ) :
    (set.removeEntry entry).get = Function.update set.get entry.1 none := by
  refine funext fun x => Option.ext fun d => ?_
  rw [get_eq_some_iff, removeEntry, List.mem_filter, decide_eq_true_iff]
  by_cases hx : x = entry.1
  · rw [hx, Function.update_self]
    exact iff_of_false (fun h => h.2 rfl) (Option.some_ne_none d).symm
  · rw [Function.update_of_ne hx, get_eq_some_iff]
    exact and_iff_left hx

/-- Removing an entry keeps the count in step with the entries. -/
theorem counted_removeEntry (hentry : entry ∈ set.entries) (hcount : set.ids.Counted) :
    (set.removeEntry entry).ids.Counted := by
  have hlen := length_filter_of_flip (p := fun _ => true) (q := fun e => decide (e.1 ≠ entry.1))
    (List.Nodup.of_map _ set.inOrder.nodup_map) hentry rfl (decide_eq_false (not_not.mpr rfl))
    fun b hb hne => decide_eq_true fun heq => hne (set.inOrder.key_inj hb hentry heq)
  rw [List.filter_true] at hlen
  rw [counted_ids_iff] at hcount ⊢
  show set.totelem - 1 = (set.entries.filter _).length
  rw [hcount, hlen, Nat.add_sub_cancel]

/-- There is a root if anything is counted. -/
theorem exists_remove_root (hcount : set.ids.Counted) (hpos : 0 < set.numElements) (balance : ℕ) :
    ∃ entry ∈ set.entries, set.remove none balance = .ok (entry, set.removeEntry entry) := by
  have hlen : 0 < set.entries.length := counted_ids_iff.mp hcount ▸ hpos
  have hroot : set.root balance = some (set.entries.get ⟨_, Nat.mod_lt balance hlen⟩) :=
    List.getElem?_eq_getElem _
  refine ⟨_, List.mem_of_getElem? hroot, ?_⟩
  have hne : ¬set.totelem = 0 := Nat.ne_of_gt hpos
  rw [remove, if_neg hne, hroot]

/-- Every addition is counted. -/
theorem numElements_add (h : set.add id data = .ok set') :
    set'.numElements = set.numElements + 1 := by
  unfold add at h
  split at h
  · cases h
  · cases h
    rfl

/-! ## Runs -/

/-- What is done to a set. -/
inductive Op (ι δ : Type)
  | add (id : ι) (data : δ)
  | remove (id : Option ι) (balance : ℕ)

/-- A set, and the map it is to be. -/
abbrev Tracked (ι δ : Type) [LinearOrder ι] : Type := DataIdset ι δ × (ι → Option δ)

/-- **One operation**, on the set and on the map. -/
def step (s : Tracked ι δ) : Op ι δ → Tracked ι δ
  | .add id data =>
    match s.1.add id data with
    | .ok set => (set, Function.update s.2 id (some data))
    | .error _ => s
  | .remove id balance =>
    match s.1.remove id balance with
    | .ok (entry, set) => (set, Function.update s.2 entry.1 none)
    | .error _ => s

/-- **Nothing is added that is there**, unless there is no space for it. -/
def AddsNew (s : Tracked ι δ) (op : Op ι δ) : Prop :=
  ∀ id data, op = .add id data →
    s.1.contains id = false ∨ s.1.numElements ≥ GOT_OBJECT_IDSET_MAX_ELEM

/-- **Adding keeps a set a map** if and only if nothing is added that is there. -/
theorem isMap_add_iff {m : ι → Option δ} (h : set.IsMap m) (hadd : set.add id data = .ok set') :
    set'.IsMap (Function.update m id (some data)) ↔ set.contains id = false := by
  obtain ⟨hcount, rfl⟩ := isMap_iff.mp h
  cases hid : set.contains id with
  | false => exact iff_of_true (isMap_iff.mpr ⟨counted_add hadd hid hcount, get_add hadd hid⟩) rfl
  | true =>
    refine iff_of_false (fun h' => ?_) Bool.noConfusion
    obtain ⟨hentries, htotelem⟩ := add_present hadd hid
    have hcount' := (isMap_iff.mp h').1
    rw [counted_ids_iff] at hcount hcount'
    rw [hentries, htotelem, hcount] at hcount'
    exact Nat.succ_ne_self _ hcount'

theorem isMap_removeEntry {m : ι → Option δ} (h : set.IsMap m) (hentry : entry ∈ set.entries) :
    (set.removeEntry entry).IsMap (Function.update m entry.1 none) := by
  obtain ⟨hcount, rfl⟩ := isMap_iff.mp h
  exact isMap_iff.mpr ⟨counted_removeEntry hentry hcount, set.get_removeEntry entry⟩

/-- **One step keeps a set a map** if and only if nothing is added that is there. -/
theorem isMap_step_iff {s : Tracked ι δ} (h : s.1.IsMap s.2) (op : Op ι δ) :
    (step s op).1.IsMap (step s op).2 ↔ AddsNew s op := by
  cases op with
  | add id data =>
    have hnew : AddsNew s (.add id data)
        ↔ s.1.contains id = false ∨ s.1.numElements ≥ GOT_OBJECT_IDSET_MAX_ELEM := by
      refine ⟨fun hnew => hnew id data rfl, fun hnew id' data' heq => ?_⟩
      cases heq
      exact hnew
    rw [hnew, step]
    by_cases hfull : s.1.numElements ≥ GOT_OBJECT_IDSET_MAX_ELEM
    · rw [add_eq_error hfull]
      exact iff_of_true h (Or.inr hfull)
    · obtain ⟨set', hadd⟩ := exists_add hfull id data
      rw [hadd, or_iff_left hfull]
      exact isMap_add_iff h hadd
  | remove id balance =>
    refine iff_of_true ?_ fun _ _ heq => by cases heq
    rw [step]
    cases hremove : s.1.remove id balance with
    | error e => exact h
    | ok removed =>
      obtain ⟨entry, set'⟩ := removed
      obtain ⟨hentry, rfl⟩ := remove_eq_ok hremove
      exact isMap_removeEntry h hentry

theorem isMap_alloc : (alloc : DataIdset ι δ).IsMap fun _ => none :=
  isMap_iff.mpr ⟨rfl, rfl⟩

/-- **A set is a map all along a run** if and only if nothing is added that is there. -/
theorem forall_isMap_iff (ops : List (Op ι δ)) :
    (∀ before after, ops = before ++ after →
      (Runs.run step (alloc, fun _ => none) before).1.IsMap
        (Runs.run step (alloc, fun _ => none) before).2)
      ↔ Runs.Meets step AddsNew (alloc, fun _ => none) ops :=
  @Runs.forall_prefix_iff _ _ step AddsNew (fun s => s.1.IsMap s.2) _ ops isMap_alloc
    fun _ op h => isMap_step_iff h op

end DataIdset

end Got

import Got.ObjectCache.DataIdset

/-!
# Caches of objects

A cache has a set of the objects that were opened. If it is full, the object at the root of the tree
is closed before another one is added.

Whether a cache is full is told by the count of the set. An object whose id is in the set is counted
and nothing more: it is not found, and will never be closed, since there is no element for it. So
each object that was added can be found or has been closed, all along a run, if and only if no
object is added whose id is in the set at that time (`forall_isCache_iff`).
-/

namespace Got

/-- `enum got_object_cache_type` -/
inductive ObjectCacheType
  | obj
  | tree
  | commit
  | tag

/-- `GOT_OBJECT_CACHE_SIZE_OBJ` and so on. -/
def ObjectCacheType.size : ObjectCacheType → ℕ
  | obj => 256
  | tree => 256
  | commit => 64
  | tag => 2048

def GOT_OBJECT_CACHE_MAX_ELEM_SIZE : ℕ := 1048576

variable {ι δ : Type} [LinearOrder ι]

/-- `struct got_object_cache` -/
structure ObjectCache (ι δ : Type) [LinearOrder ι] where
  type : ObjectCacheType
  idset : DataIdset ι δ
  size : ℕ
  cacheSearches : ℕ := 0
  cacheHit : ℕ := 0
  cacheMiss : ℕ := 0
  cacheEvict : ℕ := 0
  cacheToolarge : ℕ := 0

namespace ObjectCache

/-- `got_object_cache_init` -/
def init (type : ObjectCacheType) : ObjectCache ι δ :=
  { type, idset := DataIdset.alloc, size := type.size }

/-- An element is removed if the cache is full, and its object is to be closed. -/
def makeRoom (cache : ObjectCache ι δ) (balance : ℕ) :
    Except GotErr (ObjectCache ι δ × Option (ι × δ)) :=
  if cache.idset.numElements ≥ cache.size then
    match cache.idset.remove none balance with
    | .error e => .error e
    | .ok (ce, idset) => .ok ({ cache with idset, cacheEvict := cache.cacheEvict + 1 }, some ce)
  else .ok (cache, none)

/-- **`got_object_cache_add`**, and the object that is closed. -/
def add (getSize : δ → ℕ) (cache : ObjectCache ι δ) (id : ι) (item : δ) (balance : ℕ) :
    ObjectCache ι δ × Option (ι × δ) × Except GotErr Unit :=
  if getSize item > GOT_OBJECT_CACHE_MAX_ELEM_SIZE then
    ({ cache with cacheToolarge := cache.cacheToolarge + 1 }, none, .error .objTooLarge)
  else
    match cache.makeRoom balance with
    | .error e => (cache, none, .error e)
    | .ok (cache, closed) =>
      match cache.idset.add id item with
      | .error e => (cache, closed, .error e)
      | .ok idset => ({ cache with idset }, closed, .ok ())

/-- `got_object_cache_get` -/
def get (cache : ObjectCache ι δ) (id : ι) : ObjectCache ι δ × Option δ :=
  let cache := { cache with cacheSearches := cache.cacheSearches + 1 }
  match cache.idset.get id with
  | some item => ({ cache with cacheHit := cache.cacheHit + 1 }, some item)
  | none => ({ cache with cacheMiss := cache.cacheMiss + 1 }, none)

/-! ## Runs -/

/-- What is done to a cache. -/
inductive Op (ι δ : Type)
  | add (id : ι) (item : δ) (balance : ℕ)
  | get (id : ι)

/-- A cache, the map it is to be, and the objects that were added and closed. -/
structure Tracked (ι δ : Type) [LinearOrder ι] where
  cache : ObjectCache ι δ
  cached : ι → Option δ
  added : List (ι × δ)
  closed : List (ι × δ)

/-- A cache that nothing was added to. -/
def Tracked.init (type : ObjectCacheType) : Tracked ι δ :=
  ⟨ObjectCache.init type, fun _ => none, [], []⟩

/-- The map without what is closed. -/
def without (cached : ι → Option δ) : Option (ι × δ) → ι → Option δ
  | some ce => Function.update cached ce.1 none
  | none => cached

/-- **One operation**, on the cache and on the map. -/
def step (getSize : δ → ℕ) (s : Tracked ι δ) : Op ι δ → Tracked ι δ
  | .add id item balance =>
    match s.cache.add getSize id item balance with
    | (cache, closed, .ok ()) =>
      ⟨cache, Function.update (without s.cached closed) id (some item), (id, item) :: s.added,
        closed.toList ++ s.closed⟩
    | (cache, closed, .error _) =>
      ⟨cache, without s.cached closed, s.added, closed.toList ++ s.closed⟩
  | .get id => { s with cache := (s.cache.get id).1 }

/-- **What a cache is for**: it has as many elements as it is configured to have at most, and each
object that was added is found or was closed. -/
structure IsCache (s : Tracked ι δ) : Prop where
  size_eq : s.cache.size = s.cache.type.size
  bounded : s.cache.idset.numElements ≤ s.cache.type.size
  isMap : s.cache.idset.IsMap s.cached
  found : ∀ ce ∈ s.added, (s.cache.get ce.1).2 = some ce.2 ∨ ce ∈ s.closed

/-- **Nothing is added that is there**, once there is room for it, unless it is too large. -/
def AddsNew (getSize : δ → ℕ) (s : Tracked ι δ) (op : Op ι δ) : Prop :=
  ∀ id item balance, op = .add id item balance →
    getSize item > GOT_OBJECT_CACHE_MAX_ELEM_SIZE ∨ ∀ cache closed,
      s.cache.makeRoom balance = .ok (cache, closed) → cache.idset.contains id = false

/-! ## One operation -/

variable {getSize : δ → ℕ} {cache cache' : ObjectCache ι δ} {closed : Option (ι × δ)} {balance : ℕ}

theorem get_snd (cache : ObjectCache ι δ) (id : ι) : (cache.get id).2 = cache.idset.get id := by
  unfold get
  dsimp only
  cases cache.idset.get id <;> rfl

theorem size_pos (type : ObjectCacheType) : 0 < type.size := by
  cases type <;> decide

theorem size_le (type : ObjectCacheType) : type.size ≤ GOT_OBJECT_IDSET_MAX_ELEM := by
  cases type <;> decide

/-- **Room is made** for one more element. -/
theorem makeRoom_spec (hsize : cache.size = cache.type.size)
    (hbound : cache.idset.numElements ≤ cache.type.size) {cached : ι → Option δ}
    (hmap : cache.idset.IsMap cached) (balance : ℕ) :
    ∃ cache' closed, cache.makeRoom balance = .ok (cache', closed)
      ∧ cache'.type = cache.type ∧ cache'.size = cache.size
      ∧ cache'.idset.numElements < cache.type.size ∧ cache'.idset.IsMap (without cached closed)
      ∧ ∀ ce, closed = some ce → cached ce.1 = some ce.2 := by
  by_cases hfull : cache.idset.numElements ≥ cache.size
  · have hcount := (DataIdset.isMap_iff.mp hmap).1
    have hpos : 0 < cache.idset.numElements := lt_of_lt_of_le (hsize ▸ size_pos cache.type) hfull
    obtain ⟨ce, hce, hremove⟩ := DataIdset.exists_remove_root hcount hpos balance
    refine ⟨{ cache with idset := cache.idset.removeEntry ce, cacheEvict := cache.cacheEvict + 1 },
      some ce, ?_, rfl, rfl, ?_, DataIdset.isMap_removeEntry hmap hce, ?_⟩
    · rw [makeRoom, if_pos hfull, hremove]
    · exact lt_of_lt_of_le (Nat.sub_lt hpos Nat.one_pos) hbound
    · rintro _ ⟨⟩
      rw [← hmap.get_eq]
      exact DataIdset.get_eq_some_iff.mpr hce
  · refine ⟨cache, none, if_neg hfull, rfl, rfl, ?_, hmap, ?_⟩
    · exact hsize ▸ not_le.mp hfull
    · rintro _ ⟨⟩

/-- What was there is there, or it is what is closed. -/
theorem without_of_some {cached : ι → Option δ}
    (hclosed : ∀ ce, closed = some ce → cached ce.1 = some ce.2) {e : ι × δ}
    (he : cached e.1 = some e.2) : without cached closed e.1 = some e.2 ∨ closed = some e := by
  cases closed with
  | none => exact Or.inl he
  | some ce =>
    by_cases hid : e.1 = ce.1
    · have hdata := hclosed ce rfl
      rw [← hid, he, Option.some.injEq] at hdata
      exact Or.inr (congrArg some (Prod.ext hid hdata).symm)
    · left
      rw [without, Function.update_of_ne hid, he]

/-- **One step keeps a cache a cache** if and only if nothing is added that is there. -/
theorem isCache_step_iff {s : Tracked ι δ} (h : IsCache s) (op : Op ι δ) :
    IsCache (step getSize s op) ↔ AddsNew getSize s op := by
  cases op with
  | get id =>
    have hget : (s.cache.get id).1.idset = s.cache.idset ∧ (s.cache.get id).1.type = s.cache.type
        ∧ (s.cache.get id).1.size = s.cache.size := by
      unfold get
      dsimp only
      cases s.cache.idset.get id <;> exact ⟨rfl, rfl, rfl⟩
    obtain ⟨hidset, htype, hsize⟩ := hget
    refine iff_of_true ?_ fun _ _ _ heq => by cases heq
    refine ⟨?_, ?_, ?_, fun ce hce => ?_⟩
    · rw [step, hsize, htype, h.size_eq]
    · rw [step, hidset, htype]
      exact h.bounded
    · rw [step, hidset]
      exact h.isMap
    · have hfound := h.found ce hce
      rw [get_snd] at hfound ⊢
      rwa [step, hidset]
  | add id item balance =>
    by_cases hlarge : getSize item > GOT_OBJECT_CACHE_MAX_ELEM_SIZE
    · have hadd : s.cache.add getSize id item balance
          = ({ s.cache with cacheToolarge := s.cache.cacheToolarge + 1 }, none,
            .error .objTooLarge) := if_pos hlarge
      refine iff_of_true ?_ fun _ _ _ heq => by cases heq; exact Or.inl hlarge
      rw [step, hadd]
      refine ⟨h.size_eq, h.bounded, h.isMap, fun ce hce => ?_⟩
      have hfound := h.found ce hce
      rwa [get_snd] at hfound ⊢
    · obtain ⟨cache', closed, hroom, htype, hsize, hlt, hmap, hclosed⟩ :=
        makeRoom_spec h.size_eq h.bounded h.isMap balance
      obtain ⟨set', hset⟩ := DataIdset.exists_add
        (not_le.mpr (lt_of_lt_of_le hlt (size_le s.cache.type))) id item
      have hadd : s.cache.add getSize id item balance
          = ({ cache' with idset := set' }, closed, .ok ()) := by
        rw [add, if_neg hlarge, hroom]
        dsimp only
        rw [hset]
      have hnew : AddsNew getSize s (.add id item balance) ↔ cache'.idset.contains id = false := by
        constructor
        · exact fun hnew => (hnew id item balance rfl).resolve_left hlarge cache' closed hroom
        · intro hid _ _ _ heq
          cases heq
          refine Or.inr fun c o hco => ?_
          obtain ⟨rfl, -⟩ := Prod.mk.inj (Except.ok.inj (hroom.symm.trans hco))
          exact hid
      rw [hnew, ← DataIdset.isMap_add_iff hmap hset, step, hadd]
      refine ⟨fun h' => h'.isMap, fun h' => ⟨?_, ?_, h', fun ce hce => ?_⟩⟩
      · exact hsize.trans (h.size_eq.trans (congrArg ObjectCacheType.size htype.symm))
      · show set'.numElements ≤ cache'.type.size
        rw [DataIdset.numElements_add hset, htype]
        exact hlt
      · rw [get_snd, h'.get_eq]
        rcases List.mem_cons.mp hce with rfl | hce
        · exact Or.inl (Function.update_self _ _ _)
        · have hfound := h.found ce hce
          rw [get_snd, h.isMap.get_eq] at hfound
          rcases hfound with hfound | hfound
          · rcases without_of_some hclosed hfound with hfound | rfl
            · -- it does not have the id of what is added, which was not there
              have hne : ce.1 ≠ id := by
                rintro rfl
                have hid := (DataIdset.isMap_add_iff hmap hset).mp h'
                rw [hmap.contains_eq, hfound] at hid
                cases hid
              rw [Function.update_of_ne hne]
              exact Or.inl hfound
            · exact Or.inr (List.mem_append_left _ List.mem_cons_self)
          · exact Or.inr (List.mem_append_right _ hfound)

theorem isCache_init (type : ObjectCacheType) : IsCache (Tracked.init type : Tracked ι δ) :=
  ⟨rfl, Nat.zero_le _, DataIdset.isMap_alloc, fun _ hce => absurd hce List.not_mem_nil⟩

/-- **A cache is a cache all along a run** if and only if nothing is added that is there. -/
theorem forall_isCache_iff (getSize : δ → ℕ) (type : ObjectCacheType) (ops : List (Op ι δ)) :
    (∀ before after, ops = before ++ after →
      IsCache (Runs.run (step getSize) (Tracked.init type) before))
      ↔ Runs.Meets (step getSize) (AddsNew getSize) (Tracked.init type) ops :=
  Runs.forall_prefix_iff (isCache_init type) fun _ op h => isCache_step_iff h op

/-- **Sets of objects are maps, and caches are caches**, all along a run if and only if nothing is
added that is there. -/
theorem isMap_and_isCache_iff (getSize : δ → ℕ) (type : ObjectCacheType) :
    (∀ ops : List (DataIdset.Op ι δ),
      (∀ before after, ops = before ++ after →
        (Runs.run DataIdset.step (DataIdset.alloc, fun _ => none) before).1.IsMap
          (Runs.run DataIdset.step (DataIdset.alloc, fun _ => none) before).2)
        ↔ Runs.Meets DataIdset.step DataIdset.AddsNew (DataIdset.alloc, fun _ => none) ops)
      ∧ ∀ ops : List (Op ι δ),
        (∀ before after, ops = before ++ after →
          IsCache (Runs.run (step getSize) (Tracked.init type) before))
          ↔ Runs.Meets (step getSize) (AddsNew getSize) (Tracked.init type) ops :=
  ⟨DataIdset.forall_isMap_iff, forall_isCache_iff getSize type⟩

/-- **An id that is added twice** is counted twice. -/
theorem not_isMap_addedTwice : ¬ ∀ ops : List (DataIdset.Op ℕ ℕ),
    (Runs.run DataIdset.step (DataIdset.alloc, fun _ => none) ops).1.IsMap
      (Runs.run DataIdset.step (DataIdset.alloc, fun _ => none) ops).2 := by
  intro h
  have hmap := h [.add 1 10, .add 1 10]
  have hcount := DataIdset.counted_ids_iff.mp (DataIdset.isMap_iff.mp hmap).1
  exact absurd hcount (by decide)

end ObjectCache

end Got

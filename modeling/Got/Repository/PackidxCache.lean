import Got.Lib.Runs
import Got.Lib.Slots
import Got.Pack.PackidxSearch
import Got.Path

/-!
# The cache of pack indexes

An object is looked for in the pack indexes that are open, and then in those which there
are in the directory of packs. Each of these is opened and put in front of the others,
and the last one is closed where there is no room left. An index of the directory that is
open already is passed over, as it was searched before: all that there is in the cache at
any time was searched without success. So an index that was evicted while the directory
is read is searched again when its name comes, or need not be any more, and nothing is
missed however many indexes there are.

An index is freed also when closing it fails, but then it stays in the cache. From that
call on an index which is not open is read whenever the cache is searched. A pack in the
same situation is taken out of its slot. So a run of searches goes right if and only if every
index that has to make room for another one can be closed (`searchRight_iff`): what closing any
other index would do does not matter.
-/

namespace Got

namespace PackidxCache

/-- `struct got_packidx` in the cache. It is not open after it was freed. -/
structure CachedIdx where
  pathPackidx : Str
  packidx : Packidx
  isOpen : Bool

def GOT_PACKIDX_CACHE_SIZE : ℕ := 16
def SHA1_DIGEST_STRING_LENGTH : ℕ := 41
def GOT_PACK_PREFIX : Str := ['p', 'a', 'c', 'k', '-']
def GOT_PACKIDX_SUFFIX : Str := ['.', 'i', 'd', 'x']
def GOT_PACKIDX_NAMELEN : ℕ :=
  GOT_PACK_PREFIX.length + SHA1_DIGEST_STRING_LENGTH - 1 + GOT_PACKIDX_SUFFIX.length
def GOT_OBJECTS_PACK_DIR : Str := ['o', 'b', 'j', 'e', 'c', 't', 's', '/', 'p', 'a', 'c', 'k']

/-- **A call**, and what the system does in the course of it. -/
structure Call where
  id : Sha1
  /-- Open the directory of packs. -/
  openat : Except Errno Unit
  fdopendir : Except GotErr Unit
  /-- The names in the directory, in the order in which they are read. -/
  names : List Str
  closedir : Except GotErr Unit
  /-- `got_packidx_open` -/
  openPackidx : Str → Except GotErr Packidx
  /-- `got_packidx_close`, after which the index is freed in any case. -/
  closePackidx : Str → Except GotErr Unit

/-- The cache of pack indexes: slots, filled from the front. -/
abbrev Cache := List (Option CachedIdx)

/-- The search in an index of the cache. -/
def CachedIdx.getObjectIdx (p : CachedIdx) (id : Sha1) : Except GotErr (Option ℕ) :=
  if p.isOpen then gotPackidxGetObjectIdx p.packidx id else .error .outOfMap

/-- The first loop of the search, over the cache: the slot of the index in which the object
was found, and its position there. -/
def searchCached (id : Sha1) : Cache → ℕ → Except GotErr (Option (CachedIdx × ℕ × ℕ))
  | [], _ => .ok none
  | none :: _, _ => .ok none
  | some p :: cache, i => do
    match ← p.getObjectIdx id with
    | some idx => .ok (some (p, i, idx))
    | none => searchCached id cache (i + 1)

/-- The loop that compares paths with those in the cache. -/
def isCached (pathPackidx : Str) : Cache → Except GotErr Bool
  | [] => .ok false
  | none :: _ => .ok false
  | some p :: cache =>
    if !p.isOpen then .error .outOfMap
    else if p.pathPackidx = pathPackidx then .ok true
    else isCached pathPackidx cache

/-- **Insert an index at the front of the cache.** -/
def cachePackidx (c : Call) (cache : Cache) (p : CachedIdx) : Except GotErr Unit × Cache :=
  match isCached p.pathPackidx cache with
  | .error e => (.error e, cache)
  | .ok true => (.error .cacheDupEntry, cache)
  | .ok false =>
    match if (Slots.entries cache).length = cache.length then (Slots.entries cache).getLast?
      else none with
    | none => (.ok (), some p :: cache.dropLast)
    | some last =>
      match c.closePackidx last.pathPackidx with
      | .error e => (.error e, cache.set (cache.length - 1) (some { last with isOpen := false }))
      | .ok _ => (.ok (), some p :: cache.dropLast)

/-- `got_repo_is_packidx_filename`: a name of the right length with the right start and end. -/
def isPackidxFilename (name : Str) : Bool :=
  name.length = GOT_PACKIDX_NAMELEN ∧ GOT_PACK_PREFIX <+: name
    ∧ name.drop (GOT_PACK_PREFIX.length + SHA1_DIGEST_STRING_LENGTH - 1) = GOT_PACKIDX_SUFFIX

/-- The path of an index in the directory of packs. -/
def pathOf (name : Str) : Str := GOT_OBJECTS_PACK_DIR ++ '/' :: name

/-- **The second loop of the search**, over the directory. -/
def searchDir (c : Call) : List Str → Cache → Except GotErr (CachedIdx × ℕ) × Cache
  | [], cache => (.error .noObj, cache)
  | name :: names, cache =>
    if !isPackidxFilename name then searchDir c names cache
    else
      match isCached (pathOf name) cache with
      | .error e => (.error e, cache)
      | .ok true => searchDir c names cache
      | .ok false =>
        match c.openPackidx (pathOf name) with
        | .error e => (.error e, cache)
        | .ok packidx =>
          let p : CachedIdx := ⟨pathOf name, packidx, true⟩
          match cachePackidx c cache p with
          | (.error e, cache) => (.error e, cache)
          | (.ok _, cache) =>
            match p.getObjectIdx c.id with
            | .error e => (.error e, cache)
            | .ok (some idx) => (.ok (p, idx), cache)
            | .ok none => searchDir c names cache

/-- An error of closing the directory counts if there is no other. -/
def closeDir {α : Type} (c : Call) (out : Except GotErr α × Cache) : Except GotErr α × Cache :=
  match out.1, c.closedir with
  | .ok _, .error e => (.error e, out.2)
  | _, _ => out

/-- **Find the index that an object is in.** -/
def gotRepoSearchPackidx (c : Call) (cache : Cache) : Except GotErr (CachedIdx × ℕ) × Cache :=
  match searchCached c.id cache 0 with
  | .error e => (.error e, cache)
  | .ok (some (p, i, idx)) => (.ok (p, idx), if 0 < i then Slots.swapFront cache i else cache)
  | .ok none =>
    match c.openat with
    | .error e => (.error (if e = .noent then .noObj else .errno e), cache)
    | .ok _ =>
      match c.fdopendir with
      | .error e => (.error e, cache)
      | .ok _ => closeDir c (searchDir c c.names cache)

/-! ## What a search should do -/

/-- A pack index that is in the directory of packs and can be opened. -/
def Listed (c : Call) (path : Str) (packidx : Packidx) : Prop :=
  c.openat = .ok () ∧ ∃ name ∈ c.names, isPackidxFilename name = true ∧ path = pathOf name
    ∧ c.openPackidx path = .ok packidx

/-- **A pack index of the repository**: one that is open, or one of the directory. -/
def InRepository (c : Call) (cache : Cache) (packidx : Packidx) : Prop :=
  (∃ a ∈ Slots.entries cache, a.packidx = packidx) ∨ ∃ path, Listed c path packidx

/-- The directory of packs cannot be read, or an index in it cannot be opened. -/
def Fails (c : Call) (e : GotErr) : Prop :=
  (∃ errno, c.openat = .error errno ∧ e = .errno errno) ∨ c.fdopendir = .error e
    ∨ (∃ name ∈ c.names, isPackidxFilename name = true ∧ c.openPackidx (pathOf name) = .error e)
    ∨ c.closedir = .error e

/-- **How a search should end**, and how it should leave the cache. What is found is in the
repository. If nothing is found then the object is in no index that is open, nor in one of
the directory which is not, unless something else has failed. -/
structure SearchRight (cache : Cache) (c : Call) : Prop where
  found : ∀ p idx, (gotRepoSearchPackidx c cache).1 = .ok (p, idx) →
    p.packidx.sortedIds[idx]? = some c.id ∧ InRepository c cache p.packidx
      ∧ (gotRepoSearchPackidx c cache).2.head? = some (some p)
  absent : ∀ e, (gotRepoSearchPackidx c cache).1 = .error e → Fails c e ∨ e = .noObj
    ∧ (∀ a ∈ Slots.entries cache, c.id ∉ a.packidx.sortedIds)
    ∧ ∀ path packidx, Listed c path packidx →
      (∀ a ∈ Slots.entries cache, a.pathPackidx ≠ path) → c.id ∉ packidx.sortedIds
  contiguous : Slots.Contiguous (gotRepoSearchPackidx c cache).2
  distinct : (((gotRepoSearchPackidx c cache).2.filterMap id).map CachedIdx.pathPackidx).Nodup
  areOpen : ∀ a ∈ (gotRepoSearchPackidx c cache).2.filterMap id, a.isOpen = true

/-- **The pack indexes in the directory are well formed**, and small enough for
`got_packidx_get_object_idx` to find all of their ids. -/
def WellFormed (c : Call) : Prop :=
  ∀ name ∈ c.names, isPackidxFilename name = true → ∀ packidx,
    c.openPackidx (pathOf name) = .ok packidx →
      ConsistentIdx packidx ∧ packidx.sortedIds.length ≤ 2 ^ 30

/-- **There is room for one more index**, or the last one can be closed. -/
def HasRoom (c : Call) (as : List CachedIdx) : Prop :=
  as.length = GOT_PACKIDX_CACHE_SIZE →
    ∀ last, as.getLast? = some last → c.closePackidx last.pathPackidx = .ok ()

/-- **There is room whenever it is needed**, while the directory is read and the indexes `as` are
open: for every index that is not open yet, up to the first one that has the object. -/
def AlwaysRoom (c : Call) : List Str → List CachedIdx → Prop
  | [], _ => True
  | name :: names, as =>
    if isPackidxFilename name = true ∧ pathOf name ∉ as.map CachedIdx.pathPackidx then
      match c.openPackidx (pathOf name) with
      | .error _ => True
      | .ok packidx => HasRoom c as ∧ (c.id ∉ packidx.sortedIds →
          AlwaysRoom c names (⟨pathOf name, packidx, true⟩ :: as.take 15))
    else AlwaysRoom c names as

/-- **What a search needs**: room for the indexes that it opens. It opens none if the object is in
one that is open already, or if the directory cannot be read. -/
def CanSearch (cache : Cache) (c : Call) : Prop :=
  (∀ a ∈ Slots.entries cache, c.id ∉ a.packidx.sortedIds) → c.openat = .ok () →
    c.fdopendir = .ok () → AlwaysRoom c c.names (Slots.entries cache)

/-- The cache after a search. -/
def step (cache : Cache) (c : Call) : Cache := (gotRepoSearchPackidx c cache).2

/-- The cache of a repository that was just opened. -/
def emptyCache : Cache := List.replicate GOT_PACKIDX_CACHE_SIZE none

/-! ## Searching what is open -/

/-- An index that is open, and can be searched. -/
def Searchable (a : CachedIdx) : Prop := a.isOpen = true ∧ FindsIds a.packidx

/-- A search in an index finds the id or says that it is not there. -/
theorem Searchable.getObjectIdx {a : CachedIdx} (h : Searchable a) (id : Sha1) :
    (∃ idx, a.packidx.sortedIds[idx]? = some id ∧ a.getObjectIdx id = .ok (some idx))
      ∨ id ∉ a.packidx.sortedIds ∧ a.getObjectIdx id = .ok none := by
  rw [CachedIdx.getObjectIdx, if_pos h.1]
  by_cases hid : id ∈ a.packidx.sortedIds
  · obtain ⟨idx, hidx⟩ := List.mem_iff_getElem?.mp hid
    exact Or.inl ⟨idx, hidx, h.2.found idx id hidx⟩
  · exact Or.inr ⟨hid, h.2.absent id hid⟩

/-- The search through the cached indexes answers the first that has the id. -/
theorem searchCached_append {as : List CachedIdx} (h : ∀ a ∈ as, Searchable a) (id : Sha1)
    (k i : ℕ) :
    ((∀ a ∈ as, id ∉ a.packidx.sortedIds)
        ∧ searchCached id (as.map some ++ List.replicate k none) i = .ok none)
      ∨ ∃ xs p ys idx, as = xs ++ p :: ys ∧ p.packidx.sortedIds[idx]? = some id
        ∧ searchCached id (as.map some ++ List.replicate k none) i
          = .ok (some (p, i + xs.length, idx)) := by
  induction as generalizing i with
  | nil => exact Or.inl ⟨fun a ha => (nomatch ha), by cases k <;> rfl⟩
  | cons a as ih =>
    obtain ⟨ha, has⟩ := List.forall_mem_cons.mp h
    rw [List.map_cons, List.cons_append, searchCached]
    rcases ha.getObjectIdx id with ⟨idx, hidx, hget⟩ | ⟨hid, hget⟩
    · exact Or.inr ⟨[], a, as, idx, rfl, hidx, by rw [hget]; rfl⟩
    · rw [hget, ok_bind]
      rcases ih has (i + 1) with ⟨hnone, hsearch⟩ | ⟨xs, p, ys, idx, rfl, hidx, hsearch⟩
      · exact Or.inl ⟨List.forall_mem_cons.mpr ⟨hid, hnone⟩, hsearch⟩
      · refine Or.inr ⟨a :: xs, p, ys, idx, rfl, hidx, ?_⟩
        dsimp only
        rw [hsearch, List.length_cons, Nat.add_assoc, Nat.add_comm 1]

/-- A path is cached exactly when one of the indexes is of this path. -/
theorem isCached_append {as : List CachedIdx} (h : ∀ a ∈ as, Searchable a) (path : Str) (k : ℕ) :
    isCached path (as.map some ++ List.replicate k none)
      = .ok (decide (path ∈ as.map CachedIdx.pathPackidx)) := by
  induction as with
  | nil => cases k <;> rfl
  | cons a as ih =>
    obtain ⟨ha, has⟩ := List.forall_mem_cons.mp h
    rw [List.map_cons, List.cons_append, isCached, ha.1, ih has]
    by_cases hpath : a.pathPackidx = path
    · subst hpath
      simp
    · simp [hpath, Ne.symm hpath]

/-! ## The cache -/

/-- **The cache is in order**: the indexes are in the first slots, of distinct paths, open,
and such that they can be searched. -/
structure InOrder (cache : Cache) (as : List CachedIdx) : Prop where
  slots : cache = Slots.ofList GOT_PACKIDX_CACHE_SIZE as
  length : as.length ≤ GOT_PACKIDX_CACHE_SIZE
  distinct : (as.map CachedIdx.pathPackidx).Nodup
  searchable : ∀ a ∈ as, Searchable a

variable {c : Call} {cache : Cache} {as : List CachedIdx}

theorem InOrder.isCached (h : InOrder cache as) (path : Str) :
    isCached path cache = .ok (decide (path ∈ as.map CachedIdx.pathPackidx)) := by
  rw [h.slots, Slots.ofList, isCached_append h.searchable]

theorem inOrder_emptyCache : InOrder emptyCache [] :=
  ⟨rfl, Nat.zero_le _, List.nodup_nil, fun _ h => nomatch h⟩

theorem InOrder.perm (h : InOrder cache as) {bs : List CachedIdx} (hbs : bs.Perm as) :
    InOrder (Slots.ofList GOT_PACKIDX_CACHE_SIZE bs) bs :=
  ⟨rfl, hbs.length_eq.le.trans h.length, ((hbs.map _).nodup_iff).mpr h.distinct,
    fun a ha => h.searchable a (hbs.mem_iff.mp ha)⟩

/-- What has to go to make room is the last index, if all slots are taken. -/
theorem InOrder.last (h : InOrder cache as) :
    (if (Slots.entries cache).length = cache.length then (Slots.entries cache).getLast? else none)
      = if as.length = GOT_PACKIDX_CACHE_SIZE then as.getLast? else none := by
  rw [h.slots, Slots.entries_ofList, Slots.length_ofList h.length]

/-- **An index is put in front**, and the last one goes if there is no room. -/
theorem InOrder.cachePackidx (h : InOrder cache as) (hroom : HasRoom c as) {p : CachedIdx}
    (hp : Searchable p) (hnew : p.pathPackidx ∉ as.map CachedIdx.pathPackidx) :
    ∃ cache', cachePackidx c cache p = (.ok (), cache') ∧ InOrder cache' (p :: as.take 15) := by
  refine ⟨some p :: cache.dropLast, ?_, ?_⟩
  · unfold PackidxCache.cachePackidx
    rw [h.last, h.isCached, decide_eq_false hnew]
    dsimp only
    split
    · rfl
    · next last hlast =>
      split at hlast
      · next hfull => rw [hroom hfull last hlast]
      · cases hlast
  · refine ⟨?_, Nat.succ_le_succ (List.length_take_le 15 as), ?_, fun a ha => ?_⟩
    · rw [h.slots]
      exact Slots.cons_dropLast_ofList h.length p
    · rw [List.map_cons, List.nodup_cons, List.map_take]
      exact ⟨fun hmem => hnew (List.mem_of_mem_take hmem),
        h.distinct.sublist (List.take_sublist _ _)⟩
    · rcases List.mem_cons.mp ha with rfl | ha
      · exact hp
      · exact h.searchable a (List.mem_of_mem_take ha)

/-- **If the last one cannot be closed it stays**, and is not open any more. -/
theorem InOrder.cachePackidx_of_not_hasRoom (h : InOrder cache as) (hroom : ¬HasRoom c as)
    {p : CachedIdx} (hnew : p.pathPackidx ∉ as.map CachedIdx.pathPackidx) :
    ∃ e cache', PackidxCache.cachePackidx c cache p = (.error e, cache')
      ∧ ∃ a ∈ cache'.filterMap id, a.isOpen = false := by
  obtain ⟨hfull, hroom⟩ := Classical.not_imp.mp hroom
  obtain ⟨last, hroom⟩ := not_forall.mp hroom
  obtain ⟨hlast, hclose⟩ := Classical.not_imp.mp hroom
  unfold PackidxCache.cachePackidx
  rw [h.last, h.isCached, decide_eq_false hnew, if_pos hfull, hlast]
  dsimp only
  cases hc : c.closePackidx last.pathPackidx with
  | ok u => exact absurd hc hclose
  | error e =>
    refine ⟨e, _, rfl, { last with isOpen := false }, ?_, rfl⟩
    refine List.mem_filterMap.mpr ⟨some { last with isOpen := false }, ?_, rfl⟩
    refine List.mem_set (Nat.sub_lt ?_ Nat.one_pos) _
    rw [h.slots, Slots.length_ofList h.length]
    decide

/-- How the search of the directory may end, and what is in the cache then. -/
inductive Searched (c : Call) (as : List CachedIdx) (names : List Str) :
    Except GotErr (CachedIdx × ℕ) → List CachedIdx → Prop
  | found (p : CachedIdx) (idx : ℕ) (bs : List CachedIdx)
      (hid : p.packidx.sortedIds[idx]? = some c.id)
      (hname : ∃ name ∈ names, isPackidxFilename name = true
        ∧ c.openPackidx (pathOf name) = .ok p.packidx) : Searched c as names (.ok (p, idx))
          (p :: bs)
  | absent (bs : List CachedIdx)
      (hid : ∀ name ∈ names, isPackidxFilename name = true →
        ∀ packidx, c.openPackidx (pathOf name) = .ok packidx →
          pathOf name ∉ as.map CachedIdx.pathPackidx → c.id ∉ packidx.sortedIds) :
      Searched c as names (.error .noObj) bs
  | failed (e : GotErr) (bs : List CachedIdx)
      (hname : ∃ name ∈ names, isPackidxFilename name = true
        ∧ c.openPackidx (pathOf name) = .error e) : Searched c as names (.error e) bs

/-- A name that makes no difference. -/
theorem Searched.cons {names : List Str} {out : Except GotErr (CachedIdx × ℕ)}
    {bs : List CachedIdx} (h : Searched c as names out bs) {name : Str}
    (hname : isPackidxFilename name = true → ∀ packidx, c.openPackidx (pathOf name) = .ok packidx →
      pathOf name ∉ as.map CachedIdx.pathPackidx → c.id ∉ packidx.sortedIds) :
    Searched c as (name :: names) out bs := by
  cases h with
  | found p idx bs hid hdir =>
    obtain ⟨name', hname', hfile, hopen⟩ := hdir
    exact .found p idx bs hid ⟨name', List.mem_cons_of_mem _ hname', hfile, hopen⟩
  | absent bs hid => exact .absent bs (List.forall_mem_cons.mpr ⟨hname, hid⟩)
  | failed e bs hdir =>
    obtain ⟨name', hname', hfile, hopen⟩ := hdir
    exact .failed e bs ⟨name', List.mem_cons_of_mem _ hname', hfile, hopen⟩

/-- An index that was searched without success makes no difference to what is behind it. -/
theorem Searched.of_searched {names : List Str} {out : Except GotErr (CachedIdx × ℕ)}
    {bs : List CachedIdx} {p : CachedIdx}
    (h : Searched c (p :: as.take 15) names out bs)
    (hopen : c.openPackidx p.pathPackidx = .ok p.packidx) (hid : c.id ∉ p.packidx.sortedIds) :
    Searched c as names out bs := by
  cases h with
  | found p idx bs hid hname => exact .found p idx bs hid hname
  | absent bs hids =>
    refine .absent bs fun name hname hfile packidx hpackidx hnew => ?_
    by_cases hpath : pathOf name = p.pathPackidx
    · rw [hpath, hopen] at hpackidx
      rwa [← Except.ok.inj hpackidx]
    · refine hids name hname hfile packidx hpackidx fun hmem => ?_
      rw [List.map_cons, List.map_take] at hmem
      rcases List.mem_cons.mp hmem with heq | hmem
      · exact hpath heq
      · exact hnew (List.mem_of_mem_take hmem)
  | failed e bs hdir => exact .failed e bs hdir

/-- **The search of the directory**, where nothing that is open has the object. It leaves an index
that is not open in the cache if there was no room for another one. -/
theorem InOrder.searchDir (h : InOrder cache as) {names : List Str}
    (hwf : ∀ name ∈ names, isPackidxFilename name = true → ∀ packidx,
      c.openPackidx (pathOf name) = .ok packidx →
        ConsistentIdx packidx ∧ packidx.sortedIds.length ≤ 2 ^ 30) :
    (AlwaysRoom c names as ∧ ∃ bs, InOrder (searchDir c names cache).2 bs
        ∧ Searched c as names (searchDir c names cache).1 bs)
      ∨ (¬AlwaysRoom c names as
        ∧ ∃ a ∈ (searchDir c names cache).2.filterMap id, a.isOpen = false) := by
  induction names generalizing cache as with
  | nil => exact Or.inl ⟨trivial, as, h, .absent as fun _ hname => nomatch hname⟩
  | cons name names ih =>
    obtain ⟨hname, hnames⟩ := List.forall_mem_cons.mp hwf
    rw [PackidxCache.searchDir, AlwaysRoom]
    by_cases hfile : isPackidxFilename name = true
    rotate_left
    · -- another file in the directory
      have hother : (!isPackidxFilename name) = true := by rw [Bool.eq_false_iff.mpr hfile]; rfl
      rw [if_pos hother, if_neg fun hnew => hfile hnew.1]
      rcases ih h hnames with ⟨hroom, bs, hbs, hsearched⟩ | hfails
      · exact Or.inl ⟨hroom, bs, hbs, hsearched.cons fun hname => absurd hname hfile⟩
      · exact Or.inr hfails
    have hthis : ¬(!isPackidxFilename name) = true := by rw [hfile]; exact Bool.false_ne_true
    rw [if_neg hthis, h.isCached]
    by_cases hmem : pathOf name ∈ as.map CachedIdx.pathPackidx
    · -- an index that is open already, and was searched
      rw [decide_eq_true hmem, if_neg fun hnew => hnew.2 hmem]
      rcases ih h hnames with ⟨hroom, bs, hbs, hsearched⟩ | hfails
      · exact Or.inl ⟨hroom, bs, hbs, hsearched.cons fun _ _ _ hnew => absurd hmem hnew⟩
      · exact Or.inr hfails
    rw [decide_eq_false hmem, if_pos ⟨hfile, hmem⟩]
    dsimp only
    cases hopen : c.openPackidx (pathOf name) with
    | error e =>
      exact Or.inl ⟨trivial, as, h, .failed e as ⟨name, List.mem_cons_self, hfile, hopen⟩⟩
    | ok packidx =>
      obtain ⟨hconsistent, hlen⟩ := hname hfile _ hopen
      have hp : Searchable ⟨pathOf name, packidx, true⟩ := ⟨rfl, hconsistent.findsIds_of_le hlen⟩
      dsimp only
      by_cases hroom : HasRoom c as
      rotate_left
      · obtain ⟨e, cache', hcache, hclosed⟩ := h.cachePackidx_of_not_hasRoom (p :=
          ⟨pathOf name, packidx, true⟩) hroom hmem
        rw [hcache]
        exact Or.inr ⟨fun hall => hroom hall.1, hclosed⟩
      obtain ⟨cache', hcache, hs⟩ := h.cachePackidx hroom hp hmem
      rw [hcache]
      dsimp only
      rcases hp.getObjectIdx c.id with ⟨idx, hidx, hget⟩ | ⟨hid, hget⟩
      · rw [hget]
        exact Or.inl ⟨⟨hroom, fun hid => absurd (List.mem_of_getElem? hidx) hid⟩, _, hs,
          .found _ idx _ hidx ⟨name, List.mem_cons_self, hfile, hopen⟩⟩
      · rw [hget]
        rcases ih hs hnames with ⟨hall, bs, hbs, hsearched⟩ | ⟨hall, hclosed⟩
        · refine Or.inl ⟨⟨hroom, fun _ => hall⟩, bs, hbs,
            (hsearched.of_searched hopen hid).cons fun _ packidx' hopen' _ => ?_⟩
          rw [hopen] at hopen'
          rwa [← Except.ok.inj hopen']
        · exact Or.inr ⟨fun hall' => hall (hall'.2 hid), hclosed⟩

/-- What is in a cache that is in order. -/
theorem InOrder.filterMap (h : InOrder cache as) : cache.filterMap id = as := by
  rw [h.slots, Slots.filterMap_ofList]

theorem InOrder.entries (h : InOrder cache as) : Slots.entries cache = as := by
  rw [h.slots, Slots.entries_ofList]

/-- A cache that is in order, whatever was found. -/
theorem searchRight_of_inOrder {bs : List CachedIdx}
    (hs : InOrder (gotRepoSearchPackidx c cache).2 bs)
    (hfound : ∀ p idx, (gotRepoSearchPackidx c cache).1 = .ok (p, idx) →
      p.packidx.sortedIds[idx]? = some c.id ∧ InRepository c cache p.packidx
        ∧ (gotRepoSearchPackidx c cache).2.head? = some (some p))
    (habsent : ∀ e, (gotRepoSearchPackidx c cache).1 = .error e → Fails c e ∨ e = .noObj
      ∧ (∀ a ∈ Slots.entries cache, c.id ∉ a.packidx.sortedIds)
      ∧ ∀ path packidx, Listed c path packidx →
        (∀ a ∈ Slots.entries cache, a.pathPackidx ≠ path) → c.id ∉ packidx.sortedIds) :
    SearchRight cache c where
  found := hfound
  absent := habsent
  contiguous := by
    rw [hs.slots]
    exact Slots.contiguous_ofList
  distinct := by
    rw [hs.filterMap]
    exact hs.distinct
  areOpen := by
    rw [hs.filterMap]
    exact fun a ha => (hs.searchable a ha).1

theorem closeDir_snd {α : Type} (out : Except GotErr α × Cache) : (closeDir c out).2 = out.2 := by
  unfold closeDir
  split <;> rfl

/-- What closing a directory lets pass was there before. -/
theorem closeDir_eq_ok {α : Type} {out : Except GotErr α × Cache} {a : α}
    (h : (closeDir c out).1 = .ok a) : out.1 = .ok a := by
  unfold closeDir at h
  split at h
  · cases h
  · exact h

/-- An error is that of the search or that of closing the directory. -/
theorem closeDir_eq_error {α : Type} {out : Except GotErr α × Cache} {e : GotErr}
    (h : (closeDir c out).1 = .error e) : out.1 = .error e ∨ c.closedir = .error e := by
  unfold closeDir at h
  split at h
  · next hclosedir =>
    obtain rfl := Except.error.inj h
    exact Or.inr hclosedir
  · exact Or.inl h

/-- The index that was found is the first one. -/
theorem Searched.of_ok {names : List Str} {out : Except GotErr (CachedIdx × ℕ)} {p : CachedIdx}
    {idx : ℕ} {bs : List CachedIdx} (h : Searched c as names out bs) (hout : out = .ok (p, idx)) :
    p.packidx.sortedIds[idx]? = some c.id
      ∧ (∃ name ∈ names, isPackidxFilename name = true
        ∧ c.openPackidx (pathOf name) = .ok p.packidx) ∧ ∃ bs', bs = p :: bs' := by
  cases h with
  | found p' idx' bs' hid hname =>
    obtain ⟨rfl, rfl⟩ := Prod.mk.inj (Except.ok.inj hout)
    exact ⟨hid, hname, bs', rfl⟩
  | absent bs' hid => cases hout
  | failed e bs' hname => cases hout

/-- Why nothing was found. -/
theorem Searched.of_error {names : List Str} {out : Except GotErr (CachedIdx × ℕ)} {e : GotErr}
    {bs : List CachedIdx} (h : Searched c as names out bs) (hout : out = .error e) :
    (∃ name ∈ names, isPackidxFilename name = true ∧ c.openPackidx (pathOf name) = .error e)
      ∨ e = .noObj ∧ ∀ name ∈ names, isPackidxFilename name = true →
        ∀ packidx, c.openPackidx (pathOf name) = .ok packidx →
          pathOf name ∉ as.map CachedIdx.pathPackidx → c.id ∉ packidx.sortedIds := by
  cases h with
  | found p' idx' bs' hid hname => cases hout
  | absent bs' hid => exact Or.inr ⟨(Except.error.inj hout).symm, hid⟩
  | failed e' bs' hname =>
    obtain rfl := Except.error.inj hout
    exact Or.inl hname

theorem InOrder.head (h : InOrder cache as) {p : CachedIdx} {bs : List CachedIdx}
    (has : as = p :: bs) : cache.head? = some (some p) := by
  rw [h.slots, has]
  rfl

/-- **A search of a cache that is in order** ends as it should, and leaves the cache so. -/
theorem InOrder.search (h : InOrder cache as) (hwf : WellFormed c) (hcan : CanSearch cache c) :
    SearchRight cache c ∧ ∃ bs, InOrder (step cache c) bs := by
  suffices hboth : ∃ bs, InOrder (gotRepoSearchPackidx c cache).2 bs
      ∧ (∀ p idx, (gotRepoSearchPackidx c cache).1 = .ok (p, idx) →
        p.packidx.sortedIds[idx]? = some c.id ∧ InRepository c cache p.packidx
          ∧ (gotRepoSearchPackidx c cache).2.head? = some (some p))
      ∧ ∀ e, (gotRepoSearchPackidx c cache).1 = .error e → Fails c e ∨ e = .noObj
        ∧ (∀ a ∈ Slots.entries cache, c.id ∉ a.packidx.sortedIds)
        ∧ ∀ path packidx, Listed c path packidx →
          (∀ a ∈ Slots.entries cache, a.pathPackidx ≠ path) → c.id ∉ packidx.sortedIds by
    obtain ⟨bs, hs, hfound, habsent⟩ := hboth
    exact ⟨searchRight_of_inOrder hs hfound habsent, bs, hs⟩
  have hsearch := searchCached_append h.searchable c.id (GOT_PACKIDX_CACHE_SIZE - as.length) 0
  rw [← Slots.ofList, ← h.slots] at hsearch
  unfold gotRepoSearchPackidx
  rcases hsearch with ⟨hnone, hsearch⟩ | ⟨xs, p, ys, idx, rfl, hidx, hsearch⟩
  · rw [hsearch]
    dsimp only
    cases hopenat : c.openat with
    | error errno =>
      dsimp only
      refine ⟨as, h, fun p idx hp => (by cases hp), fun e he => ?_⟩
      obtain rfl := Except.error.inj he
      by_cases hnoent : errno = .noent
      · rw [if_pos hnoent]
        refine Or.inr ⟨rfl, ?_, fun path packidx hlisted => ?_⟩
        · rw [h.entries]
          exact hnone
        · rw [Listed, hopenat] at hlisted
          cases hlisted.1
      · rw [if_neg hnoent]
        exact Or.inl (Or.inl ⟨errno, hopenat, rfl⟩)
    | ok u =>
      dsimp only
      cases hfdopendir : c.fdopendir with
      | error e =>
        refine ⟨as, h, fun p idx hp => (by cases hp), fun e' he => ?_⟩
        obtain rfl := Except.error.inj he
        exact Or.inl (Or.inr (Or.inl hfdopendir))
      | ok u =>
        dsimp only
        obtain ⟨-, bs, hs, hsearched⟩ := (h.searchDir hwf).resolve_right fun hfails =>
          hfails.1 (h.entries ▸ hcan (h.entries.symm ▸ hnone) hopenat hfdopendir)
        refine ⟨bs, by rw [closeDir_snd]; exact hs, fun p idx hp => ?_, fun e he => ?_⟩
        · obtain ⟨hid, ⟨name, hname, hfile, hopen⟩, bs', hbs⟩ := hsearched.of_ok (closeDir_eq_ok hp)
          refine ⟨hid, Or.inr ⟨pathOf name, hopenat, name, hname, hfile, rfl, hopen⟩, ?_⟩
          rw [closeDir_snd]
          exact hs.head hbs
        · rcases closeDir_eq_error he with he | hclosedir
          · rcases hsearched.of_error he with hfailed | ⟨rfl, hid⟩
            · exact Or.inl (Or.inr (Or.inr (Or.inl hfailed)))
            · rw [h.entries]
              refine Or.inr ⟨rfl, hnone, ?_⟩
              rintro path packidx ⟨-, name, hname, hfile, rfl, hopen⟩ hnew
              refine hid name hname hfile packidx hopen fun hmem => ?_
              obtain ⟨a, ha, hpath⟩ := List.mem_map.mp hmem
              exact hnew a ha hpath
          · exact Or.inl (Or.inr (Or.inr (Or.inr hclosedir)))
  · -- the object is in an index that is open
    rw [hsearch, Nat.zero_add]
    have hin : InRepository c cache p.packidx := by
      refine Or.inl ⟨p, ?_, rfl⟩
      rw [h.entries]
      exact List.mem_append_right _ List.mem_cons_self
    suffices hfront : ∃ bs, InOrder (if 0 < xs.length then Slots.swapFront cache xs.length
      else cache)
        (p :: bs) by
      obtain ⟨bs, hs⟩ := hfront
      refine ⟨p :: bs, hs, fun p' idx' hp => ?_, fun e he => (by cases he)⟩
      obtain ⟨rfl, rfl⟩ := Prod.mk.inj (Except.ok.inj hp)
      exact ⟨hidx, hin, hs.head rfl⟩
    cases xs with
    | nil => exact ⟨ys, h⟩
    | cons a xs =>
      obtain ⟨bs, hswap, hperm⟩ := @Slots.swapFront_ofList _ GOT_PACKIDX_CACHE_SIZE (a :: xs) ys p
      have hpos : 0 < (a :: xs).length := Nat.succ_pos _
      rw [if_pos hpos, h.slots, hswap]
      exact ⟨bs, h.perm hperm⟩

/-- **And without room for an index** it leaves one that is not open. -/
theorem InOrder.canSearch_of_searchRight (h : InOrder cache as) (hwf : WellFormed c)
    (hright : SearchRight cache c) : CanSearch cache c := by
  intro hnone hopenat hfdopendir
  rw [h.entries] at hnone ⊢
  by_contra hroom
  obtain ⟨a, ha, hclosed⟩ := ((h.searchDir hwf).resolve_left fun hok => hroom hok.1).2
  have hsearch : searchCached c.id cache 0 = .ok none := by
    rw [h.slots, Slots.ofList]
    refine (searchCached_append h.searchable c.id _ 0).elim And.right ?_
    rintro ⟨xs, p, ys, idx, rfl, hidx, -⟩
    exact absurd (List.mem_of_getElem? hidx)
      (hnone p (List.mem_append_right _ List.mem_cons_self))
  have hcache : (gotRepoSearchPackidx c cache).2 = (PackidxCache.searchDir c c.names cache).2 := by
    unfold gotRepoSearchPackidx
    rw [hsearch]
    dsimp only
    rw [hopenat]
    dsimp only
    rw [hfdopendir]
    exact closeDir_snd _
  rw [← hcache] at ha
  rw [hright.areOpen a ha] at hclosed
  cases hclosed

/-- **Every search of a run ends as it should** and leaves the cache as it should be, if and only
if every index that has to make room for another one can be closed. -/
theorem searchRight_iff {calls : List Call} (h : ∀ c ∈ calls, WellFormed c) :
    Runs.Meets step SearchRight emptyCache calls ↔ Runs.Meets step CanSearch emptyCache calls := by
  suffices hall : ∀ cache as, InOrder cache as →
      (Runs.Meets step SearchRight cache calls ↔ Runs.Meets step CanSearch cache calls) from
    hall _ _ inOrder_emptyCache
  induction calls with
  | nil => exact fun _ _ _ => Iff.rfl
  | cons c calls ih =>
    obtain ⟨hc, hcalls⟩ := List.forall_mem_cons.mp h
    intro cache as hs
    have hiff : SearchRight cache c ↔ CanSearch cache c :=
      ⟨hs.canSearch_of_searchRight hc, fun hcan => (hs.search hc hcan).1⟩
    rw [Runs.Meets, Runs.Meets, hiff]
    refine and_congr_right fun hcan => ?_
    obtain ⟨-, bs, hbs⟩ := hs.search hc hcan
    exact ih hcalls _ bs hbs

/-- The name of one of many pack indexes. -/
def idxName (n : ℕ) : Str :=
  GOT_PACK_PREFIX ++ List.replicate 39 '0' ++ [Char.ofNat (97 + n)] ++ GOT_PACKIDX_SUFFIX

/-- A search for an object that is not there, in a directory of some number of empty pack
indexes. -/
def vainSearch (n : ℕ) (closePackidx : Except GotErr Unit) : Call where
  id := oidOf []
  openat := .ok ()
  fdopendir := .ok ()
  names := (List.range n).map idxName
  closedir := .ok ()
  openPackidx _ := .ok ⟨List.replicate 256 0, [], [], none, 0⟩
  closePackidx _ := closePackidx

theorem vainSearch_areOpen : ((step (step emptyCache (vainSearch 16 (.ok ())))
    (vainSearch 17 (.error .io))).filterMap id).all CachedIdx.isOpen = false := by
  decide +kernel

/-- The index that has to go where there is no room for another one cannot be closed. -/
theorem vainSearch_not_searchRight :
    ¬Runs.Meets step SearchRight emptyCache
      [vainSearch 16 (.ok ()), vainSearch 17 (.error .io)] := by
  intro h
  have hopen := List.all_eq_true.mpr h.2.1.areOpen
  exact Bool.false_ne_true (vainSearch_areOpen.symm.trans hopen)

/-- As long as there are slots that are empty nothing is closed. -/
theorem alwaysRoom_of_le {names : List Str}
    (h : as.length + names.length ≤ GOT_PACKIDX_CACHE_SIZE) : AlwaysRoom c names as := by
  induction names generalizing as with
  | nil => exact trivial
  | cons name names ih =>
    rw [List.length_cons] at h
    rw [AlwaysRoom]
    split
    · split
      · exact trivial
      · refine ⟨fun hfull => by omega, fun _ => ih ?_⟩
        rw [List.length_cons, List.length_take]
        omega
    · exact ih (by omega)

/-- There is always room if every index can be closed. -/
theorem alwaysRoom_of_closes (h : ∀ path, c.closePackidx path = .ok ()) (names : List Str)
    (as : List CachedIdx) : AlwaysRoom c names as := by
  induction names generalizing as with
  | nil => exact trivial
  | cons name names ih =>
    rw [AlwaysRoom]
    split
    · split
      · exact trivial
      · exact ⟨fun _ last _ => h _, fun _ => ih _⟩
    · exact ih as

theorem wellFormed_vainSearch (n : ℕ) (closePackidx : Except GotErr Unit) :
    WellFormed (vainSearch n closePackidx) := by
  intro name _ _ packidx hopen
  obtain rfl := Except.ok.inj hopen
  refine ⟨⟨List.Pairwise.nil, List.length_replicate, fun b hb => ?_⟩, by decide⟩
  simp only [List.getElem_replicate]
  rfl

/-- The cache is filled while no index could be closed, and then one more index is opened. -/
theorem searchRight_iff_vainSearch :
    Runs.Meets step SearchRight emptyCache
      [vainSearch 16 (.error .io), vainSearch 17 (.ok ())] := by
  refine (searchRight_iff fun c hc => ?_).mpr
    ⟨fun _ _ _ => alwaysRoom_of_le (by decide),
      fun _ _ _ => alwaysRoom_of_closes (fun _ => rfl) _ _, trivial⟩
  rcases List.mem_cons.mp hc with rfl | hc
  · exact wellFormed_vainSearch 16 _
  · obtain rfl := List.mem_singleton.mp hc
    exact wellFormed_vainSearch 17 _

end PackidxCache

end Got

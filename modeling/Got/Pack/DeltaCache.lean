import Mathlib.Data.Finset.Basic
import Got.Error
import Got.Lib.Recency
import Got.Lib.Runs

/-!
# The cache of deltas

The deltas of a pack file that were read last, by the offset of their data. A delta that is asked
for moves to the front of a list, and the last one of the list makes room for another one once there
are as many as the cache was made for. The number of elements is kept in a counter.

What the cache gives for an offset is what was added for it last, in whatever order the functions
are called, for an entry that was added later hides the others for the same offset, and stays in
front of them until they are gone. There is one entry at most for an offset if a delta is only added
after it was asked for in vain, as the functions of `pack.c` do.

A delta that is too large is refused. It is counted as such, in a counter that is for debugging
output alone, and nothing else of the cache is changed.
-/

namespace Got

variable {δ : Type}

/-- `struct got_delta_cache_element` -/
structure DeltaCacheElement (δ : Type) where
  deltaDataOffset : ℤ
  deltaData : δ
  deltaLen : ℕ
  deriving DecidableEq

/-- `struct got_delta_cache` -/
structure DeltaCache (δ : Type) where
  entries : List (DeltaCacheElement δ) := []
  nelem : ℕ := 0
  maxelem : ℕ
  maxelemsize : ℕ
  cacheSearch : ℕ := 0
  cacheHit : ℕ := 0
  cacheMiss : ℕ := 0
  cacheEvict : ℕ := 0
  cacheToolarge : ℕ := 0
  deriving DecidableEq

namespace DeltaCache

/-- `got_delta_cache_alloc` -/
def alloc (maxelem maxelemsize : ℕ) : DeltaCache δ := { maxelem, maxelemsize }

/-- `remove_least_used_element`: a list without a last element has none to be read. -/
def removeLeastUsedElement (cache : DeltaCache δ) : Except GotErr (DeltaCache δ) :=
  if cache.nelem = 0 then .ok cache
  else
    match cache.entries.getLast? with
    | none => .error .outOfMap
    | some _ => .ok { cache with
        entries := cache.entries.dropLast
        nelem := cache.nelem - 1
        cacheEvict := cache.cacheEvict + 1 }

/-- **`got_delta_cache_add`** -/
def add (cache : DeltaCache δ) (deltaDataOffset : ℤ) (deltaData : δ) (deltaLen : ℕ) :
    DeltaCache δ × Except GotErr Unit :=
  if deltaLen > cache.maxelemsize then
    ({ cache with cacheToolarge := cache.cacheToolarge + 1 }, .error .noSpace)
  else
    match if cache.nelem ≥ cache.maxelem then cache.removeLeastUsedElement else .ok cache with
    | .error e => (cache, .error e)
    | .ok cache => ({ cache with
        entries := ⟨deltaDataOffset, deltaData, deltaLen⟩ :: cache.entries
        nelem := cache.nelem + 1 }, .ok ())

/-- **`got_delta_cache_get`**. The entries are gone through up to the first one that is for the
offset, which moves to the front unless it is there. -/
def get (cache : DeltaCache δ) (deltaDataOffset : ℤ) : DeltaCache δ × Option (δ × ℕ) :=
  let cache := { cache with cacheSearch := cache.cacheSearch + 1 }
  match cache.entries.span (·.deltaDataOffset ≠ deltaDataOffset) with
  | (_, []) => ({ cache with cacheMiss := cache.cacheMiss + 1 }, none)
  | (before, entry :: after) =>
    let cache := { cache with cacheHit := cache.cacheHit + 1 }
    (if before.isEmpty then cache else { cache with entries := entry :: (before ++ after) },
      some (entry.deltaData, entry.deltaLen))

/-! ## Runs -/

/-- What is done to a cache. -/
inductive Op (δ : Type)
  | add (deltaDataOffset : ℤ) (deltaData : δ) (deltaLen : ℕ)
  | get (deltaDataOffset : ℤ)

/-- A cache, what was added last for each offset, and the offsets that were asked for in vain since
then. -/
structure Tracked (δ : Type) where
  cache : DeltaCache δ
  latest : ℤ → Option (δ × ℕ)
  missed : Finset ℤ

/-- A cache that nothing was added to. -/
def Tracked.alloc (maxelem maxelemsize : ℕ) : Tracked δ :=
  ⟨DeltaCache.alloc maxelem maxelemsize, fun _ => none, ∅⟩

/-- **One call**, and what is known after it. -/
def step (s : Tracked δ) : Op δ → Tracked δ
  | .add off data len =>
    match s.cache.add off data len with
    | (cache, .ok ()) =>
      ⟨cache, Function.update s.latest off (some (data, len)), s.missed.erase off⟩
    | (cache, .error _) => { s with cache }
  | .get off =>
    match s.cache.get off with
    | (cache, some _) => { s with cache }
    | (cache, none) => { s with cache, missed := insert off s.missed }

/-- **A delta is only added after it was asked for in vain.** -/
def AddsMissed (s : Tracked δ) : Op δ → Prop
  | .add off _ _ => off ∈ s.missed
  | .get _ => True

instance (s : Tracked δ) : DecidablePred (AddsMissed s)
  | .add off _ _ => inferInstanceAs (Decidable (off ∈ s.missed))
  | .get _ => inferInstanceAs (Decidable True)

/-- The entry that is found for an offset. -/
def lookup (cache : DeltaCache δ) (off : ℤ) : Option (DeltaCacheElement δ) :=
  Recency.lookup DeltaCacheElement.deltaDataOffset cache.entries off

/-- **What is kept in every run**: the counter, the bounds the cache was made with, and that an
entry which is found is what was added last. -/
structure Inv (maxelem maxelemsize : ℕ) (s : Tracked δ) : Prop where
  maxelem_eq : s.cache.maxelem = maxelem
  maxelemsize_eq : s.cache.maxelemsize = maxelemsize
  count : s.cache.nelem = s.cache.entries.length
  bounded : s.cache.nelem ≤ maxelem
  latest : ∀ off e, s.cache.lookup off = some e → s.latest off = some (e.deltaData, e.deltaLen)

/-- **What is kept if only missed deltas are added**: no offset occurs twice, and those that were
asked for in vain do not occur. -/
structure Distinct (s : Tracked δ) : Prop where
  nodup : (s.cache.entries.map DeltaCacheElement.deltaDataOffset).Nodup
  missed : ∀ off ∈ s.missed, s.cache.lookup off = none

/-! ## One call -/

variable {cache : DeltaCache δ} {s : Tracked δ} {maxelem maxelemsize : ℕ}

/-- **A delta that is too large** is counted, and nothing else is done. -/
theorem add_of_gt {len : ℕ} (h : len > cache.maxelemsize) (off : ℤ) (data : δ) :
    cache.add off data len
      = ({ cache with cacheToolarge := cache.cacheToolarge + 1 }, .error .noSpace) :=
  if_pos h

/-- **A delta that is not** is put in front of what was there, without the last entry if the cache
was full. -/
theorem exists_add {len : ℕ} (hcount : cache.nelem = cache.entries.length)
    (hlen : ¬ len > cache.maxelemsize) (off : ℤ) (data : δ) :
    ∃ kept evict, cache.add off data len
        = ({ cache with
              entries := ⟨off, data, len⟩ :: kept
              nelem := kept.length + 1
              cacheEvict := evict }, .ok ())
      ∧ kept = if cache.nelem ≥ cache.maxelem then cache.entries.dropLast else cache.entries := by
  rw [add, if_neg hlen]
  by_cases hfull : cache.nelem ≥ cache.maxelem
  · rw [if_pos hfull, if_pos hfull, removeLeastUsedElement]
    by_cases hempty : cache.nelem = 0
    · have hnil : cache.entries = [] := List.length_eq_zero_iff.mp (hcount.symm.trans hempty)
      rw [if_pos hempty]
      refine ⟨[], cache.cacheEvict, ?_, ?_⟩
      · dsimp only
        rw [hempty, hnil]
        rfl
      · rw [hnil, List.dropLast_nil]
    · have hne : cache.entries ≠ [] := by
        rintro hnil
        rw [hnil] at hcount
        exact hempty hcount
      rw [if_neg hempty, List.getLast?_eq_some_getLast hne]
      refine ⟨_, cache.cacheEvict + 1, ?_, rfl⟩
      dsimp only
      rw [List.length_dropLast, hcount]
  · rw [if_neg hfull, if_neg hfull]
    refine ⟨_, cache.cacheEvict, ?_, rfl⟩
    dsimp only
    rw [hcount]

/-- **What is asked for** moves to the front if it is there, and is what is looked up. -/
theorem exists_get (cache : DeltaCache δ) (off : ℤ) :
    ∃ hit miss, cache.get off
      = ({ cache with
            entries := Recency.touch DeltaCacheElement.deltaDataOffset cache.entries off
            cacheSearch := cache.cacheSearch + 1
            cacheHit := hit
            cacheMiss := miss }, (cache.lookup off).map fun e => (e.deltaData, e.deltaLen)) := by
  rw [get]
  dsimp only
  rw [List.span_eq_takeWhile_dropWhile]
  rcases Recency.dropWhile_cases DeltaCacheElement.deltaDataOffset cache.entries off with
    ⟨hd, hlookup⟩ | ⟨before, e, after, hl, ht, hd, he, hbefore⟩
  · refine ⟨cache.cacheHit, cache.cacheMiss + 1, ?_⟩
    rw [Recency.touch, hd, lookup, hlookup]
    rfl
  · refine ⟨cache.cacheHit + 1, cache.cacheMiss, ?_⟩
    have hlookup : cache.lookup off = some e := by
      rw [lookup, hl]
      exact Recency.lookup_middle he hbefore
    rw [Recency.touch, hd, ht, hlookup]
    dsimp only
    cases before with
    | nil =>
      -- the entry is the first one, and stays where it is
      rw [hl]
      rfl
    | cons b before => rfl

/-- **What is found after an addition**: what was added, or what was there before. -/
theorem lookup_of_kept {kept : List (DeltaCacheElement δ)}
    (hkept : kept = if cache.nelem ≥ cache.maxelem then cache.entries.dropLast
      else cache.entries)
    {off : ℤ} {e : DeltaCacheElement δ}
    (he : Recency.lookup DeltaCacheElement.deltaDataOffset kept off = some e) :
    cache.lookup off = some e := by
  split at hkept
  · rw [hkept] at he
    exact Recency.lookup_of_dropLast he
  · rwa [hkept] at he

/-- **A call of `got_delta_cache_get`** in a run. -/
theorem exists_step_get (s : Tracked δ) (off : ℤ) :
    ∃ hit miss, step s (.get off)
      = ⟨{ s.cache with
            entries := Recency.touch DeltaCacheElement.deltaDataOffset s.cache.entries off
            cacheSearch := s.cache.cacheSearch + 1
            cacheHit := hit
            cacheMiss := miss },
          s.latest, if (s.cache.lookup off).isNone then insert off s.missed else s.missed⟩ := by
  obtain ⟨hit, miss, hget⟩ := exists_get s.cache off
  refine ⟨hit, miss, ?_⟩
  rw [step, hget]
  cases s.cache.lookup off with
  | none => rfl
  | some e => rfl

/-- **A call of `got_delta_cache_add`** in a run. -/
theorem step_add_cases (hcount : s.cache.nelem = s.cache.entries.length) (off : ℤ) (data : δ)
    (len : ℕ) :
    step s (.add off data len)
        = { s with cache := { s.cache with cacheToolarge := s.cache.cacheToolarge + 1 } }
      ∨ ∃ kept evict, step s (.add off data len)
          = ⟨{ s.cache with
                entries := ⟨off, data, len⟩ :: kept
                nelem := kept.length + 1
                cacheEvict := evict },
              Function.update s.latest off (some (data, len)), s.missed.erase off⟩
        ∧ kept = if s.cache.nelem ≥ s.cache.maxelem then s.cache.entries.dropLast
            else s.cache.entries := by
  by_cases hlen : len > s.cache.maxelemsize
  · left
    rw [step, add_of_gt hlen]
  · right
    obtain ⟨kept, evict, hadd, hkept⟩ := exists_add hcount hlen off data
    refine ⟨kept, evict, ?_, hkept⟩
    rw [step, hadd]

/-- **Every call keeps** the counter and the bounds, and what is found is what was added last. -/
theorem inv_step (hmax : 0 < maxelem) (h : Inv maxelem maxelemsize s) (op : Op δ) :
    Inv maxelem maxelemsize (step s op) := by
  cases op with
  | get off =>
    obtain ⟨hit, miss, hstep⟩ := exists_step_get s off
    rw [hstep]
    refine ⟨h.maxelem_eq, h.maxelemsize_eq, ?_, h.bounded, fun off' e he => ?_⟩
    · exact h.count.trans (Recency.touch_perm _ _ _).length_eq.symm
    · rw [lookup, Recency.lookup_touch] at he
      exact h.latest off' e he
  | add off data len =>
    rcases step_add_cases h.count off data len with hstep | ⟨kept, evict, hstep, hkept⟩
    · rw [hstep]
      exact ⟨h.maxelem_eq, h.maxelemsize_eq, h.count, h.bounded, h.latest⟩
    · rw [hstep]
      refine ⟨h.maxelem_eq, h.maxelemsize_eq, rfl, ?_, fun off' e he => ?_⟩
      · -- there is room, since the last entry is gone if the cache was full
        have hbound := h.bounded
        rw [h.maxelem_eq, h.count] at hkept
        rw [h.count] at hbound
        show kept.length + 1 ≤ maxelem
        split at hkept <;> rw [hkept]
        · rw [List.length_dropLast]
          omega
        · omega
      · rw [lookup, Recency.lookup_cons] at he
        split at he
        · rename_i hoff
          obtain rfl := Option.some.inj he
          rw [← hoff]
          exact Function.update_self _ _ _
        · rename_i hoff
          show Function.update s.latest off (some (data, len)) off' = _
          rw [Function.update_of_ne (Ne.symm hoff)]
          exact h.latest off' e (lookup_of_kept hkept he)

/-- **An addition of a missed delta keeps** offsets distinct. -/
theorem distinct_step (hcount : s.cache.nelem = s.cache.entries.length) (h : Distinct s)
    (op : Op δ) (hop : AddsMissed s op) : Distinct (step s op) := by
  cases op with
  | get off =>
    obtain ⟨hit, miss, hstep⟩ := exists_step_get s off
    rw [hstep]
    refine ⟨?_, fun off' hoff' => ?_⟩
    · exact ((Recency.touch_perm _ _ _).map _).nodup_iff.mpr h.nodup
    · rw [lookup, Recency.lookup_touch]
      dsimp only at hoff'
      split at hoff'
      · rename_i hnone
        rcases Finset.mem_insert.mp hoff' with rfl | hoff'
        · exact Option.isNone_iff_eq_none.mp hnone
        · exact h.missed off' hoff'
      · exact h.missed off' hoff'
  | add off data len =>
    rcases step_add_cases hcount off data len with hstep | ⟨kept, evict, hstep, hkept⟩
    · rw [hstep]
      exact ⟨h.nodup, h.missed⟩
    · have hnone : ∀ off' ∈ s.missed,
          Recency.lookup DeltaCacheElement.deltaDataOffset kept off' = none := by
        intro off' hoff'
        refine Option.eq_none_iff_forall_ne_some.mpr fun e he => ?_
        have hfound := lookup_of_kept hkept he
        rw [h.missed off' hoff'] at hfound
        cases hfound
      have hsub : kept.Sublist s.cache.entries := by
        split at hkept <;> rw [hkept]
        exact List.dropLast_sublist _
      rw [hstep]
      refine ⟨List.nodup_cons.mpr ⟨?_, (hsub.map _).nodup h.nodup⟩, fun off' hoff' => ?_⟩
      · exact Recency.lookup_eq_none_iff.mp (hnone off hop)
      · obtain ⟨hne, hoff'⟩ := Finset.mem_erase.mp hoff'
        rw [lookup, Recency.lookup_cons, if_neg (Ne.symm hne)]
        exact hnone off' hoff'

/-! ## All runs -/

theorem inv_alloc (maxelem maxelemsize : ℕ) :
    Inv maxelem maxelemsize (Tracked.alloc maxelem maxelemsize : Tracked δ) :=
  ⟨rfl, rfl, rfl, Nat.zero_le _, fun _ _ he => by cases he⟩

theorem distinct_alloc (maxelem maxelemsize : ℕ) :
    Distinct (Tracked.alloc maxelem maxelemsize : Tracked δ) :=
  ⟨List.nodup_nil, fun _ hoff => absurd hoff (Finset.notMem_empty _)⟩

theorem inv_run (hmax : 0 < maxelem) (maxelemsize : ℕ) (ops : List (Op δ)) :
    Inv maxelem maxelemsize (Runs.run step (Tracked.alloc maxelem maxelemsize) ops) :=
  Runs.invariant (inv_alloc maxelem maxelemsize) (fun _ op h => inv_step hmax h op) ops

/-- **No offset occurs twice** at the end of a run that only adds what was missed. -/
theorem distinct_run (hmax : 0 < maxelem) {ops : List (Op δ)}
    (hops : Runs.Meets step AddsMissed (Tracked.alloc maxelem maxelemsize) ops) :
    Distinct (Runs.run step (Tracked.alloc maxelem maxelemsize) ops) := by
  refine (@Runs.Meets.invariant _ _ _ _ (fun s => Inv maxelem maxelemsize s ∧ Distinct s) _ _
    hops ?_ ?_).2
  · exact ⟨inv_alloc maxelem maxelemsize, distinct_alloc maxelem maxelemsize⟩
  · rintro s op ⟨hinv, hdistinct⟩ hop
    exact ⟨inv_step hmax hinv op, distinct_step hinv.count hdistinct op hop⟩

/-- **A cache after any calls**, if it was made for some elements, as all caches are: its counter is
the length of its list and within the bound, no offset occurs twice if only missed deltas were
added, what is got for an offset is what was added last for it, and an addition is refused if and
only if the delta is too large, which is counted while everything else stays as it is. -/
theorem deltaCache_run (hmax : 0 < maxelem) (maxelemsize : ℕ) (ops : List (Op δ)) :
    let s := Runs.run step (Tracked.alloc maxelem maxelemsize) ops
    s.cache.nelem = s.cache.entries.length ∧ s.cache.nelem ≤ maxelem
      ∧ (Runs.Meets step AddsMissed (Tracked.alloc maxelem maxelemsize) ops →
        (s.cache.entries.map DeltaCacheElement.deltaDataOffset).Nodup)
      ∧ (∀ off, (s.cache.get off).2 = none ∨ (s.cache.get off).2 = s.latest off)
      ∧ ∀ off data len,
        (len ≤ maxelemsize → (s.cache.add off data len).2 = .ok ())
        ∧ (len > maxelemsize → s.cache.add off data len
          = ({ s.cache with cacheToolarge := s.cache.cacheToolarge + 1 }, .error .noSpace)) := by
  intro s
  have h : Inv maxelem maxelemsize s := inv_run hmax maxelemsize ops
  refine ⟨h.count, h.bounded, fun hops => (distinct_run hmax hops).nodup, fun off => ?_,
    fun off data len => ⟨fun hlen => ?_, fun hlen => ?_⟩⟩
  · obtain ⟨hit, miss, hget⟩ := exists_get s.cache off
    rw [hget]
    cases hlookup : s.cache.lookup off with
    | none => exact Or.inl rfl
    | some e => exact Or.inr (h.latest off e hlookup).symm
  · rw [← h.maxelemsize_eq] at hlen
    obtain ⟨kept, evict, hadd, -⟩ := exists_add h.count (not_lt.mpr hlen) off data
    rw [hadd]
  · rw [← h.maxelemsize_eq] at hlen
    exact add_of_gt hlen off data

/-- The first one of two deltas is asked for again, so it is the other one that makes room for a
third one. A fourth one is too large. -/
theorem deltaCache_run_movedFront :
    (Runs.run step (Tracked.alloc 2 10) [.get 1, .add 1 101 5, .get 2, .add 2 102 5, .get 1,
        .get 3, .add 3 103 10, .get 4, .add 4 104 11]).cache.entries
        = [⟨3, 103, 10⟩, ⟨1, 101, 5⟩]
      ∧ ((Runs.run step (Tracked.alloc 2 10) [.get 1, .add 1 101 5, .get 2, .add 2 102 5, .get 1,
        .get 3, .add 3 103 10, .get 4, .add 4 104 11]).cache.entries.map
        DeltaCacheElement.deltaDataOffset).Nodup :=
  ⟨by decide, (deltaCache_run (by decide) 10 _).2.2.1 (by decide)⟩

end DeltaCache

end Got

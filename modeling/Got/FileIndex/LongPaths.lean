import Got.FileIndex.Index

/-!
# Paths that are too long for the bits of their length

An entry has twelve bits for the length of its path, and a longer path is given the largest
length that they can hold. Where a path is looked up, its length is cut off to these bits
instead, so there a long path counts as one that is 4096 characters shorter, or shorter yet.

Two paths compare equal in a lookup if these two lengths are the same, and the paths agree
that far (`lookup_eq_iff`). So an entry with a long path is not found by its own path, except
where the length that is cut off is the largest one by chance; and then it is found by all
paths of such a length that begin in the same way. An entry with a short path is also found
by any path that goes on behind it for 4096 characters, or a multiple of that. Last, an entry
whose path has 4095 characters or more is not inserted if the index has one that agrees with
it in these.

Which paths are affected is said of pairs of paths: `foundOnlyBy_iff` has the pairs for which
an entry with the first path is found by the second path exactly if they are the same,
whatever else there is in the index.
-/

namespace Got

open OrderedList

/-! ## The comparison -/

/-- No path ends with a separator. -/
theorem Canonical.ne_slash {path pre rest : Str} (h : Canonical path) (hrest : path = pre ++ rest) :
    rest ≠ ['/'] := by
  rintro rfl
  obtain ⟨c, cs, heq, -⟩ := h.behind pre [] hrest
  cases heq

/-- **What compares equal** has the same length, and agrees that far. -/
theorem gotPathCmpLen_eq_iff {p q : Str} (hp : Canonical p) (hq : Canonical q) {m l : ℕ}
    (hm : m ≤ p.length) (hl : l ≤ q.length) :
    gotPathCmpLen p q m l = .eq ↔ m = l ∧ p.take l = q.take l := by
  obtain ⟨k, pre, xs, ys, hskip, hxs, hys, hlen, hend⟩ := skipCommonLen_spec (min m l) p q
  have hcmp : gotPathCmpLen p q m l = if m = l ∧ k = 0 then .eq else cmpRest xs ys := by
    unfold gotPathCmpLen
    rw [hp.lenWithoutLeading_eq, hq.lenWithoutLeading_eq, hp.dropWhile_eq, hq.dropWhile_eq]
    dsimp only
    rw [hskip]
  have hne : cmpRest xs ys ≠ .eq := by
    have hx : xs ≠ ['/'] := hp.ne_slash hxs
    have hy : ys ≠ ['/'] := hq.ne_slash hys
    rw [cmpRest, hp.skipSeparators_eq hxs, hq.skipSeparators_eq hys]
    split
    · exact absurd rfl hx
    · exact absurd rfl hy
    all_goals grind
  rw [hcmp]
  by_cases h : m = l ∧ k = 0
  · obtain ⟨rfl, rfl⟩ := h
    rw [if_pos ⟨rfl, rfl⟩]
    have hpre : pre.length = m := by omega
    refine iff_of_true rfl ⟨rfl, ?_⟩
    rw [hxs, hys, List.take_left' hpre, List.take_left' hpre]
  · rw [if_neg h]
    refine iff_of_false hne ?_
    rintro ⟨rfl, htake⟩
    -- the paths would have to agree further
    have hk : k ≠ 0 := fun hk => h ⟨rfl, hk⟩
    have hxlen := congrArg List.length hxs
    have hylen := congrArg List.length hys
    rw [List.length_append] at hxlen hylen
    rcases hend with hk0 | rfl | rfl | ⟨a, xs', b, ys', rfl, rfl, hab⟩
    · exact hk hk0
    · rw [List.length_nil] at hxlen
      omega
    · rw [List.length_nil] at hylen
      omega
    · have hget := congrArg (·[pre.length]?) htake
      rw [List.getElem?_take_of_lt (by omega), List.getElem?_take_of_lt (by omega), hxs, hys,
        List.getElem?_append_right (Nat.le_refl _), List.getElem?_append_right (Nat.le_refl _),
        Nat.sub_self] at hget
      exact hab (Option.some.inj hget)

namespace Fileindex

/-- **An entry is found by its own path only**, as far as these two paths go: an entry with
the first path is added to an index that has no entry with this path, and is then looked
up with the second one. -/
def FoundOnlyBy (p q : FilePath) : Prop :=
  ∀ (ops : List FileindexOp) (ie : ℕ) (fi' : Fileindex), Runs.Meets step Allocated empty ops →
    ie < (Runs.run step empty ops).heap.length →
    ((Runs.run step empty ops).entry ie).path = relPath p.1 →
    ((Runs.run step empty ops).entry ie).removed = false →
    (∀ ie' ∈ (Runs.run step empty ops).entries,
      ((Runs.run step empty ops).entry ie').path ≠ relPath p.1) →
    (Runs.run step empty ops).gotFileindexEntryAdd ie = (none, fi') →
    (fi'.gotFileindexEntryGet (relPath q.1) (relPath q.1).length = some ie ↔ q = p)

/-- The two lengths are the same, and the paths agree that far. -/
def Collides (path1 path2 : Str) : Prop :=
  path1.length % 2 ^ 12 = min path2.length MAX_PATH_LEN
    ∧ path1.take (min path2.length MAX_PATH_LEN) = path2.take (min path2.length MAX_PATH_LEN)

/-- **The paths for which lookups are right.** -/
def LengthsAgree (p q : FilePath) : Prop :=
  (q = p → (relPath p.1).length < MAX_PATH_LEN) ∧ (q ≠ p → ¬Collides (relPath q.1) (relPath p.1))

/-! ## Lookups -/

/-- The length with which a path is looked up. -/
theorem pathLen_lookupKey (path : Str) (n : ℕ) : (lookupKey path n).pathLen = n % 2 ^ 12 := by
  show ((_ &&& GOT_FILEIDX_F_PATH_LEN) &&& GOT_FILEIDX_F_PATH_LEN : UInt32).toNat = _
  rw [UInt32.and_assoc, UInt32.and_self, UInt32.toNat_and]
  refine (Nat.and_two_pow_sub_one_eq_mod _ 12).trans ?_
  exact Nat.mod_mod_of_dvd n (by decide)

/-- **What a lookup compares.** -/
theorem lookup_eq_iff (q : FilePath) {e : FileindexEntry} (he : e.IsEntry) :
    gotFileindexCmp (lookupKey (relPath q.1) (relPath q.1).length) e = .eq
      ↔ Collides (relPath q.1) e.path := by
  obtain ⟨names, hnames⟩ := he.names
  have hcanonical : Canonical e.path := hnames ▸ canonical_relPath names
  unfold gotFileindexCmp
  rw [pathLen_lookupKey, he.pathLen_eq]
  exact gotPathCmpLen_eq_iff (canonical_relPath q.1) hcanonical (Nat.mod_le _ _)
    (Nat.min_le_left _ _)

variable {fi fi' : Fileindex} {ie : ℕ}

/-- What is found compares equal. -/
theorem collides_of_get (h : Ordered fi) {q : FilePath}
    (hget : fi.gotFileindexEntryGet (relPath q.1) (relPath q.1).length = some ie) :
    Collides (relPath q.1) (fi.entry ie).path := by
  unfold gotFileindexEntryGet at hget
  split at hget
  · cases hget
  · next ie' hfind =>
    split at hget
    · cases hget
    · obtain rfl := Option.some.inj hget
      rw [← lookup_eq_iff q (isEntry_entry h.isEntry _)]
      have hfound := List.find?_some hfind
      exact of_decide_eq_true hfound

/-- **An entry that was added**: it is as it was, but for a flag, and so are all others. -/
theorem add_spec (h : Ordered fi) (hie : ie < fi.heap.length)
    (hadd : fi.gotFileindexEntryAdd ie = (none, fi')) : Ordered fi'
      ∧ (∀ ie', (fi'.entry ie').path = (fi.entry ie').path)
      ∧ (∀ ie', (fi'.entry ie').removed = (fi.entry ie').removed)
      ∧ fi'.entries = insertBy fi'.cmp ie fi.entries := by
  have hstep : Ordered (fi.step (.add ie)) := h.step hie
  rw [step, hadd] at hstep
  have hpath : ((fi.entry ie).setFlags GOT_FILEIDX_F_NOT_FLUSHED).path = (fi.entry ie).path := rfl
  have hremoved : ((fi.entry ie).setFlags GOT_FILEIDX_F_NOT_FLUSHED).removed
      = (fi.entry ie).removed := FileindexEntry.hasFlag_setFlags _ (by decide)
  have hpath := setEntry_congr FileindexEntry.path hpath
  have hremoved := setEntry_congr FileindexEntry.removed hremoved
  unfold gotFileindexEntryAdd at hadd
  dsimp only at hadd
  split at hadd
  · cases hadd
  · next fi₁ hok =>
    unfold addEntry at hok
    split at hok
    · cases hok
    · obtain rfl := (Prod.mk.inj hadd).2
      obtain rfl := Except.ok.inj hok
      exact ⟨hstep, hpath, hremoved, rfl⟩

/-- **Where no path agrees with it**, an entry is inserted. -/
theorem mem_entries_of_add (h : Ordered fi) (hie : ie < fi.heap.length)
    (hadd : fi.gotFileindexEntryAdd ie = (none, fi'))
    (hnew : ∀ ie' ∈ fi.entries, fi'.key ie' ≠ fi'.key ie) : ie ∈ fi'.entries := by
  obtain ⟨h', -, -, hentries⟩ := add_spec h hie hadd
  rw [hentries]
  exact (perm_insertBy (comparesBy h'.isEntry) hnew).mem_iff.mpr List.mem_cons_self

/-- A short path, and one that agrees with it. -/
theorem eq_of_pathKey_eq {p q : Str} (hp : p.length < MAX_PATH_LEN)
    (h : pathKey MAX_PATH_LEN q = pathKey MAX_PATH_LEN p) : q = p := by
  have hlen := congrArg List.length h
  rw [pathKey, pathKey, List.length_map, List.length_map, List.length_take, List.length_take]
    at hlen
  exact pathKey_inj (by omega) (Nat.le_of_lt hp) h

/-- **An entry with a short path is found by its path.** -/
theorem get_of_short (h : Ordered fi) {p : FilePath} (hie : ie ∈ fi.entries)
    (hpath : (fi.entry ie).path = relPath p.1) (hlive : (fi.entry ie).removed = false)
    (hshort : (relPath p.1).length < MAX_PATH_LEN) :
    fi.gotFileindexEntryGet (relPath p.1) (relPath p.1).length = some ie := by
  have hfind : ∀ ie', gotFileindexCmp (lookupKey (relPath p.1) (relPath p.1).length)
      (fi.entry ie') = .eq ↔ pathKey MAX_PATH_LEN (relPath p.1) = fi.key ie' := by
    intro ie'
    rw [gotFileindexCmp_eq (isEntry_lookupKey hshort.le) (isEntry_entry h.isEntry ie')]
    exact linCmp_eq_eq_iff
  have hfound := (findBy_eq_some_iff (b := ie) hfind h.inOrder).mpr
    ⟨hie, congrArg (pathKey MAX_PATH_LEN) hpath⟩
  unfold gotFileindexEntryGet
  rw [hfound]
  dsimp only
  rw [hlive]
  rfl

/-- **Lookups are right** where the lengths agree. -/
theorem foundOnlyBy_of_lengthsAgree {p q : FilePath} (h : LengthsAgree p q) : FoundOnlyBy p q := by
  intro ops ie fi' hops hie hpath hlive hnew hadd
  have hordered : Ordered (Runs.run step empty ops) :=
    hops.invariant ordered_empty fun _ _ hs hop => Ordered.step hs hop
  obtain ⟨h', hpaths, hremoved, -⟩ := add_spec hordered hie hadd
  have hpath' : (fi'.entry ie).path = relPath p.1 := (hpaths ie).trans hpath
  by_cases hqp : q = p
  · subst hqp
    have hshort := h.1 rfl
    refine iff_of_true (get_of_short h' (mem_entries_of_add hordered hie hadd ?_) hpath'
      ((hremoved ie).trans hlive) hshort) rfl
    intro ie' hie' hkey
    refine hnew ie' hie' ((hpaths ie').symm.trans ?_)
    rw [key, key, FileindexEntry.key, FileindexEntry.key, hpath'] at hkey
    exact eq_of_pathKey_eq hshort hkey
  · refine iff_of_false (fun hget => h.2 hqp ?_) hqp
    rw [← hpath']
    exact collides_of_get h' hget

/-! ## Where lookups go wrong -/

/-- What is found is in the tree. -/
theorem mem_entries_of_get {path : Str} {n : ℕ} (hget : fi.gotFileindexEntryGet path n = some ie) :
    ie ∈ fi.entries := by
  unfold gotFileindexEntryGet at hget
  split at hget
  · cases hget
  · next ie' hfind =>
    split at hget
    · cases hget
    · obtain rfl := Option.some.inj hget
      exact List.mem_of_find?_eq_some hfind

/-- A path with one more name. -/
theorem relPath_concat {names : List Name} (h : names ≠ []) (n : Name) :
    relPath (names ++ [n]) = relPath names ++ '/' :: n.val := by
  obtain ⟨m, names, rfl⟩ := List.exists_cons_of_ne_nil h
  rw [List.cons_append, relPath, relPath, slashed_append, List.append_assoc]
  exact congrArg (fun s => m.val ++ (slashed names ++ '/' :: s)) (List.append_nil n.val)

/-- A path below another one. -/
def below (p : FilePath) : FilePath :=
  ⟨p.1 ++ [⟨['a'], isName_a⟩], List.append_ne_nil_of_left_ne_nil p.2.1 _, by
    intro c hc
    rw [relPath_concat p.2.1] at hc
    rcases List.mem_append.mp hc with hc | hc
    · exact p.2.2 c hc
    · rcases List.mem_pair.mp hc with rfl | rfl <;> decide⟩

theorem relPath_below (p : FilePath) : relPath (below p).1 = relPath p.1 ++ ['/', 'a'] :=
  relPath_concat p.2.1 _

/-- The path below a long path agrees with it. -/
theorem pathKey_below {p : FilePath} (hlong : MAX_PATH_LEN ≤ (relPath p.1).length) :
    pathKey MAX_PATH_LEN (relPath (below p).1) = pathKey MAX_PATH_LEN (relPath p.1) := by
  rw [pathKey, pathKey, relPath_below, List.take_append_of_le_length hlong]

/-- **An entry with a long path is not inserted** where one that agrees with it is there. -/
theorem not_foundOnlyBy_of_long {p : FilePath} (hlong : MAX_PATH_LEN ≤ (relPath p.1).length) :
    ¬FoundOnlyBy p p := by
  intro hfound
  let ops : List FileindexOp := [.alloc (below p), .add 0, .alloc p]
  have hops : Runs.Meets step Allocated empty ops := ⟨trivial, Nat.one_pos, trivial, trivial⟩
  have hordered : Ordered (Runs.run step empty ops) :=
    hops.invariant ordered_empty fun _ _ hs hop => Ordered.step hs hop
  have hentries : (Runs.run step empty ops).entries = [0] := rfl
  have hlt : 1 < (Runs.run step empty ops).heap.length := Nat.one_lt_two
  have hother : ((Runs.run step empty ops).entry 0).path = relPath (below p).1 := rfl
  have hadd : ∃ fi', (Runs.run step empty ops).gotFileindexEntryAdd 1 = (none, fi') := ⟨_, rfl⟩
  obtain ⟨fi', hadd⟩ := hadd
  have hget := (hfound ops 1 fi' hops hlt rfl (FileindexEntry.removed_alloc _) ?_ hadd).mpr rfl
  · obtain ⟨h', hpaths, -, hentries'⟩ := add_spec hordered hlt hadd
    -- the comparison says that the path is there
    have hsame : insertBy fi'.cmp 1 [0] = [0] := by
      have hcmp : fi'.cmp 1 0 = .eq := by
        rw [(comparesBy h'.isEntry).eq_iff, key, key, FileindexEntry.key, FileindexEntry.key,
          hpaths, hpaths, hother, pathKey_below hlong]
        rfl
      rw [insertBy, hcmp]
    have hmem := mem_entries_of_get hget
    rw [hentries', hentries, hsame] at hmem
    exact Nat.one_ne_zero (List.mem_singleton.mp hmem)
  · intro ie' hie' hpath
    rw [hentries] at hie'
    obtain rfl := List.mem_singleton.mp hie'
    rw [hother, relPath_below] at hpath
    exact absurd (congrArg List.length hpath) (by simp)

/-- **An entry is found by a path that collides with its own.** -/
theorem not_foundOnlyBy_of_collides {p q : FilePath} (hqp : q ≠ p)
    (hcollides : Collides (relPath q.1) (relPath p.1)) : ¬FoundOnlyBy p q := by
  intro hfound
  have hops : Runs.Meets step Allocated empty [.alloc p] := ⟨trivial, trivial⟩
  have hordered : Ordered (Runs.run step empty [.alloc p]) :=
    hops.invariant ordered_empty fun _ _ hs hop => Ordered.step hs hop
  have hadd : ∃ fi', (Runs.run step empty [.alloc p]).gotFileindexEntryAdd 0 = (none, fi') :=
    ⟨_, rfl⟩
  obtain ⟨fi', hadd⟩ := hadd
  obtain ⟨h', hpaths, hremoved, hentries⟩ := add_spec hordered Nat.one_pos hadd
  refine hqp ((hfound [.alloc p] 0 fi' hops Nat.one_pos rfl (FileindexEntry.removed_alloc _)
    (fun _ hie' => nomatch hie') hadd).mp ?_)
  have hcmp : gotFileindexCmp (lookupKey (relPath q.1) (relPath q.1).length) (fi'.entry 0)
    = .eq := by
    rw [lookup_eq_iff q (isEntry_entry h'.isEntry 0), hpaths]
    exact hcollides
  have hlive : (fi'.entry 0).removed = false := (hremoved 0).trans (FileindexEntry.removed_alloc _)
  have hentries : fi'.entries = [0] := hentries
  have hfind : findBy (fun ie => gotFileindexCmp (lookupKey (relPath q.1) (relPath q.1).length)
      (fi'.entry ie)) fi'.entries = some 0 := by
    rw [findBy, hentries]
    exact List.find?_cons_of_pos (decide_eq_true hcmp)
  unfold gotFileindexEntryGet
  rw [hfind]
  dsimp only
  rw [hlive]
  rfl

/-- **Lookups are right exactly for the paths of which the lengths agree**, whatever else there is
in the index. An entry has twelve bits for the length of its path. It is made with the length or the
greatest that fits, while a lookup takes the low bits of the length; and paths are compared only as
far as their lengths go. -/
theorem foundOnlyBy_iff (p q : FilePath) : FoundOnlyBy p q ↔ LengthsAgree p q := by
  refine ⟨fun h => ⟨?_, fun hqp hcollides => not_foundOnlyBy_of_collides hqp hcollides h⟩,
    foundOnlyBy_of_lengthsAgree⟩
  rintro rfl
  by_contra hlong
  exact not_foundOnlyBy_of_long (Nat.le_of_not_lt hlong) h

theorem isName_long : List.replicate 255 'a' ≠ [] ∧ '/' ∉ List.replicate 255 'a' := by
  decide +kernel

/-- The same name, any number of times. -/
def repeated (k : ℕ) : List Name := List.replicate k ⟨_, isName_long⟩

theorem length_slashed_repeated (k : ℕ) : (slashed (repeated k)).length = 256 * k := by
  induction k with
  | zero => rfl
  | succ k ih =>
    have hsucc : slashed (repeated (k + 1))
        = ('/' :: List.replicate 255 'a') ++ slashed (repeated k) := rfl
    rw [hsucc, List.length_append, ih, List.length_cons, List.length_replicate, Nat.mul_succ,
      Nat.add_comm]

theorem mem_slashed_repeated {k : ℕ} {c : Char} (hc : c ∈ slashed (repeated k)) :
    c = '/' ∨ c = 'a' := by
  obtain ⟨n, hn, hc⟩ := List.mem_flatMap.mp hc
  obtain rfl := List.eq_of_mem_replicate hn
  exact (List.mem_cons.mp hc).imp_right List.eq_of_mem_replicate

theorem isFilePath_repeated (k : ℕ) : repeated (k + 1) ≠ [] ∧
    ∀ c ∈ relPath (repeated (k + 1)), 0 < c.toNat ∧ c.toNat < 256 := by
  refine ⟨List.cons_ne_nil _ _, fun c hc => ?_⟩
  rcases @mem_slashed_repeated (k + 1) c (List.mem_cons_of_mem _ hc) with rfl | rfl <;> decide

/-- Directories with long names, one below the other, and a file. -/
def longPath : FilePath := ⟨_, isFilePath_repeated 16⟩

theorem length_longPath : MAX_PATH_LEN < (relPath longPath.1).length := by
  have hlen : (relPath longPath.1).length + 1 = 256 * (16 + 1) := length_slashed_repeated (16 + 1)
  have hmax : MAX_PATH_LEN = 4095 := rfl
  omega

theorem not_foundOnlyBy_longPath : ¬FoundOnlyBy longPath longPath :=
  not_foundOnlyBy_of_long (Nat.le_of_lt length_longPath)

end Fileindex

end Got

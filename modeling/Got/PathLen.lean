import Got.PathOrder

/-!
# Comparing paths by their stated lengths

`got_path_cmp` is given the lengths of its paths. The file index has twelve
bits for the length of a path, so there the length of a long path is not
stated in full. What is compared then are the first 4095 characters
(`gotPathCmpLen_of_canonical`), and paths which have those in common are equal.

The order is described by ranks of characters here, in which the separator
comes first, so that nothing has to be taken apart into names.
-/

namespace Got

/-! ## The comparison -/

/-- Skip over a common prefix of at most `n` characters: how many of them are
left, and what follows. -/
def skipCommonLen : ℕ → Str → Str → ℕ × Str × Str
  | n + 1, a :: as, b :: bs =>
    if a = b then skipCommonLen n as bs else (n + 1, a :: as, b :: bs)
  | n, as, bs => (n, as, bs)

/-- The length of what follows leading separators, as a `size_t`. -/
def lenWithoutLeading (path : Str) (len : ℕ) : ℕ :=
  let leading := (path.takeWhile (· = '/')).length
  if leading ≤ len then len - leading else 2 ^ 64 - (leading - len)

/-- The comparison of what follows a common prefix. -/
def cmpRest (rest1 rest2 : Str) : Ordering :=
  match skipSeparators rest1, skipSeparators rest2 with
  | ['/'], [] => .eq
  | [], ['/'] => .eq
  | '/' :: _, [] => .gt
  | [], '/' :: _ => .lt
  | '/' :: _, _ :: _ => .lt
  | _ :: _, '/' :: _ => .gt
  | [], _ :: _ => .lt
  | _, [] => .gt
  | a :: _, b :: _ => if a < b then .lt else .gt

/-- **`got_path_cmp`, given lengths.** What is beyond the length of a path is
still looked at, where the common prefix ends there. -/
def gotPathCmpLen (path1 path2 : Str) (len1 len2 : ℕ) : Ordering :=
  let len1 := lenWithoutLeading path1 len1
  let len2 := lenWithoutLeading path2 len2
  let (n, rest1, rest2) :=
    skipCommonLen (min len1 len2) (path1.dropWhile (· = '/')) (path2.dropWhile (· = '/'))
  if len1 = len2 ∧ n = 0 then .eq else cmpRest rest1 rest2

/-! ## Ranks -/

/-- The rank of a character in a path. -/
def rank (c : Char) : ℕ := if c = '/' then 0 else c.toNat + 1

theorem rank_slash : rank '/' = 0 := rfl

theorem rank_pos {c : Char} (h : c ≠ '/') : rank c = c.toNat + 1 := if_neg h

theorem rank_inj {a b : Char} (h : rank a = rank b) : a = b := by
  unfold rank at h
  split at h <;> split at h
  · next ha hb => rw [ha, hb]
  · exact absurd h (Nat.succ_ne_zero _).symm
  · exact absurd h (Nat.succ_ne_zero _)
  · exact Char.toNat_inj.mp (Nat.succ.inj h)

/-- Different characters compare like their ranks. -/
theorem lt_iff_rank_lt {a b : Char} (ha : a ≠ '/') (hb : b ≠ '/') : a < b ↔ rank a < rank b := by
  rw [rank_pos ha, rank_pos hb, Nat.add_lt_add_iff_right]
  exact Iff.rfl

/-- **The key of a path**: the ranks of as many characters as there is a length
for. -/
def pathKey (limit : ℕ) (path : Str) : List ℕ := (path.take limit).map rank

theorem pathKey_inj {limit : ℕ} {p q : Str} (hp : p.length ≤ limit) (hq : q.length ≤ limit)
    (h : pathKey limit p = pathKey limit q) : p = q := by
  rw [pathKey, pathKey, List.take_of_length_le hp, List.take_of_length_le hq] at h
  exact List.map_injective_iff.mpr (fun _ _ => rank_inj) h

/-- **A path without redundant separators**: behind a separator there is
always a name, and none is in front. -/
structure Canonical (path : Str) : Prop where
  head : ∀ rest, path ≠ '/' :: rest
  behind : ∀ pre rest, path = pre ++ '/' :: rest → ∃ c cs, rest = c :: cs ∧ c ≠ '/'

namespace Canonical

variable {path : Str}

/-- A canonical path without its slash begins with a name. -/
theorem takeWhile_eq (h : Canonical path) : path.takeWhile (· = '/') = [] := by
  cases path with
  | nil => rfl
  | cons c cs =>
    have hc : c ≠ '/' := fun hc => h.head cs (hc ▸ rfl)
    exact List.takeWhile_cons_of_neg (by simpa using hc)

theorem dropWhile_eq (h : Canonical path) : path.dropWhile (· = '/') = path := by
  have happend := List.takeWhile_append_dropWhile (p := (· = '/')) (l := path)
  rw [h.takeWhile_eq] at happend
  exact happend

theorem lenWithoutLeading_eq (h : Canonical path) (len : ℕ) : lenWithoutLeading path len = len := by
  rw [lenWithoutLeading, h.takeWhile_eq]
  exact if_pos (Nat.zero_le len)

/-- The rest of a path without redundant separators has none either. -/
theorem skipSeparators_eq (h : Canonical path) {pre rest : Str} (hrest : path = pre ++ rest) :
    skipSeparators rest = rest := by
  unfold skipSeparators
  split
  · next rest =>
    obtain ⟨c, cs, heq, hc⟩ := h.behind pre _ hrest
    exact absurd (List.cons.inj heq).1.symm hc
  · rfl

end Canonical

/-- A path of names has no redundant separators. -/
theorem canonical_relPath (names : List Name) : Canonical (relPath names) where
  head rest h := by
    cases names with
    | nil => cases h
    | cons n names =>
      obtain ⟨c, cs, hc, hne⟩ := relPath_head n names
      rw [hc] at h
      exact hne (List.cons.inj h).1
  behind pre rest h := by
    induction names generalizing pre rest with
    | nil => cases pre <;> cases h
    | cons n names ih =>
      -- the separator is the one behind the first name, or it comes later
      have hfirst : ∀ rest, slashed names = '/' :: rest → ∃ c cs, rest = c :: cs ∧ c ≠ '/' := by
        intro rest h
        cases names with
        | nil => cases h
        | cons m names =>
          rw [slashed_cons] at h
          obtain rfl := (List.cons.inj h).2
          exact relPath_head m names
      rw [relPath] at h
      rcases List.append_eq_append_iff.mp h with ⟨mid, hpre, hmid⟩ | ⟨mid, hn, hmid⟩
      · cases mid with
        | nil => exact hfirst rest hmid
        | cons x mid =>
          cases names with
          | nil => cases hmid
          | cons m names =>
            rw [slashed_cons] at hmid
            exact ih mid rest (List.cons.inj hmid).2
      · cases mid with
        | nil => exact hfirst rest hmid.symm
        | cons x mid =>
          obtain ⟨hx, -⟩ := List.cons.inj hmid
          have hmem : x ∈ n.1 := hn ▸ List.mem_append_right pre List.mem_cons_self
          exact absurd (hx ▸ hmem) n.2.2

/-! ## The order -/

theorem linCmp_append {β : Type} [LinearOrder β] (as xs ys : List β) :
    linCmp (as ++ xs) (as ++ ys) = linCmp xs ys := by
  induction as with
  | nil => rfl
  | cons a as ih => rw [List.cons_append, List.cons_append, linCmp_cons, linCmp_self, ih]; rfl

/-- **What a common prefix leaves**: it ends where a path ends, or where the
paths differ, or after as many characters as were asked for. -/
theorem skipCommonLen_spec (n : ℕ) (as bs : Str) :
    ∃ k pre xs ys, skipCommonLen n as bs = (k, xs, ys) ∧ as = pre ++ xs ∧ bs = pre ++ ys
      ∧ pre.length + k = n
      ∧ (k = 0 ∨ xs = [] ∨ ys = [] ∨ ∃ a xs' b ys', xs = a :: xs' ∧ ys = b :: ys' ∧ a ≠ b) := by
  induction n generalizing as bs with
  | zero => exact ⟨0, [], as, bs, by cases as <;> cases bs <;> rfl, rfl, rfl, rfl, Or.inl rfl⟩
  | succ n ih =>
    cases as with
    | nil => exact ⟨n + 1, [], [], bs, rfl, rfl, rfl, Nat.zero_add _, Or.inr (Or.inl rfl)⟩
    | cons a as =>
      cases bs with
      | nil =>
        exact ⟨n + 1, [], a :: as, [], rfl, rfl, rfl, Nat.zero_add _, Or.inr (Or.inr (Or.inl rfl))⟩
      | cons b bs =>
        rw [skipCommonLen]
        split
        · next hab =>
          obtain ⟨k, pre, xs, ys, heq, rfl, rfl, hlen, hend⟩ := ih as bs
          subst hab
          exact ⟨k, a :: pre, xs, ys, heq, rfl, rfl, by rw [List.length_cons]; omega, hend⟩
        · next hab =>
          exact ⟨n + 1, [], a :: as, b :: bs, rfl, rfl, rfl, Nat.zero_add _,
            Or.inr (Or.inr (Or.inr ⟨a, as, b, bs, rfl, rfl, hab⟩))⟩

/-- Different characters decide, by their ranks. -/
theorem cmpRest_of_ne {p q pre as bs : Str} {a b : Char} (hp : Canonical p) (hq : Canonical q)
    (ha : p = pre ++ a :: as) (hb : q = pre ++ b :: bs) (hab : a ≠ b) :
    cmpRest (a :: as) (b :: bs) = linCmp (rank a) (rank b) := by
  rw [cmpRest, hp.skipSeparators_eq ha, hq.skipSeparators_eq hb]
  by_cases ha' : a = '/'
  · subst ha'
    have hb' : b ≠ '/' := Ne.symm hab
    rw [linCmp_eq_lt_iff.mpr (by rw [rank_slash, rank_pos hb']; exact Nat.succ_pos _)]
    simp
  · by_cases hb' : b = '/'
    · subst hb'
      rw [linCmp_eq_gt_iff.mpr (by rw [rank_slash, rank_pos ha']; exact Nat.succ_pos _)]
      simp
    · rcases lt_or_gt_of_ne hab with h | h
      · rw [linCmp_eq_lt_iff.mpr ((lt_iff_rank_lt ha' hb').mp h)]
        simp [h]
      · rw [linCmp_eq_gt_iff.mpr ((lt_iff_rank_lt hb' ha').mp h)]
        simp [not_lt_of_gt h]

/-- A path that ends comes first. -/
theorem cmpRest_nil {p pre as : Str} {a : Char} (hp : Canonical p) (ha : p = pre ++ a :: as) :
    cmpRest [] (a :: as) = .lt ∧ cmpRest (a :: as) [] = .gt := by
  have hnil : skipSeparators [] = [] := rfl
  rw [cmpRest, cmpRest, hp.skipSeparators_eq ha, hnil]
  by_cases ha' : a = '/'
  · subst ha'
    obtain ⟨c, cs, rfl, -⟩ := hp.behind pre as ha
    exact ⟨rfl, rfl⟩
  · simp [ha']

/-- **The order of paths whose lengths are stated up to a limit** is that of
their keys. -/
theorem gotPathCmpLen_of_canonical {limit : ℕ} {p q : Str} (hp : Canonical p) (hq : Canonical q) :
    gotPathCmpLen p q (min p.length limit) (min q.length limit)
      = linCmp (pathKey limit p) (pathKey limit q) := by
  obtain ⟨k, pre, xs, ys, hskip, hxs, hys, hlen, hend⟩ :=
    skipCommonLen_spec (min (min p.length limit) (min q.length limit)) p q
  have hp_len : p.length = pre.length + xs.length := by rw [hxs, List.length_append]
  have hq_len : q.length = pre.length + ys.length := by rw [hys, List.length_append]
  have hkey : ∀ {s zs : Str}, s = pre ++ zs →
      pathKey limit s = pre.map rank ++ (zs.take (limit - pre.length)).map rank := by
    intro s zs hs
    rw [pathKey, hs, List.take_append, List.map_append, List.take_of_length_le (by omega)]
  have hcmp : gotPathCmpLen p q (min p.length limit) (min q.length limit)
      = if min p.length limit = min q.length limit ∧ k = 0 then .eq else cmpRest xs ys := by
    unfold gotPathCmpLen
    rw [hp.lenWithoutLeading_eq, hq.lenWithoutLeading_eq, hp.dropWhile_eq, hq.dropWhile_eq]
    dsimp only
    rw [hskip]
  rw [hcmp, hkey hxs, hkey hys, linCmp_append]
  by_cases heq : min p.length limit = min q.length limit ∧ k = 0
  · -- both paths end, or both go on beyond the limit
    obtain ⟨hmin, rfl⟩ := heq
    have htake : xs.take (limit - pre.length) = [] ∧ ys.take (limit - pre.length) = [] := by
      rw [← List.length_eq_zero_iff, ← List.length_eq_zero_iff, List.length_take, List.length_take]
      omega
    rw [if_pos ⟨hmin, rfl⟩, htake.1, htake.2]
    exact (linCmp_self _).symm
  · rw [if_neg heq]
    cases xs with
    | nil =>
      cases ys with
      | nil => exact absurd ⟨by rw [hp_len, hq_len], by simp at hp_len hq_len; omega⟩ heq
      | cons b ys =>
        have hlt : pre.length < limit := by simp at hp_len hq_len; omega
        obtain ⟨m, hm⟩ : ∃ m, limit - pre.length = m + 1 := ⟨limit - pre.length - 1, by omega⟩
        rw [(cmpRest_nil hq hys).1, hm]
        exact (linCmp_eq_lt_iff.mpr (List.nil_lt_cons _ _)).symm
    | cons a xs =>
      cases ys with
      | nil =>
        have hlt : pre.length < limit := by simp at hp_len hq_len; omega
        obtain ⟨m, hm⟩ : ∃ m, limit - pre.length = m + 1 := ⟨limit - pre.length - 1, by omega⟩
        rw [(cmpRest_nil hp hxs).2, hm]
        exact (linCmp_eq_gt_iff.mpr (List.nil_lt_cons _ _)).symm
      | cons b ys =>
        rcases hend with rfl | h | h | ⟨a', xs', b', ys', ha, hb, hab⟩
        · exact absurd ⟨by simp at hp_len hq_len; omega, rfl⟩ heq
        · exact nomatch h
        · exact nomatch h
        · obtain ⟨rfl, rfl⟩ := List.cons.inj ha
          obtain ⟨rfl, rfl⟩ := List.cons.inj hb
          have hlt : pre.length < limit := by
            by_contra hge
            exact heq ⟨by simp at hp_len hq_len; omega, by omega⟩
          obtain ⟨m, hm⟩ : ∃ m, limit - pre.length = m + 1 := ⟨limit - pre.length - 1, by omega⟩
          rw [cmpRest_of_ne hp hq hxs hys hab, hm, List.take_succ_cons, List.take_succ_cons,
            List.map_cons, List.map_cons, linCmp_cons]
          rcases lt_or_gt_of_ne (fun h => hab (rank_inj h)) with h | h
          · rw [linCmp_eq_lt_iff.mpr h]
            rfl
          · rw [linCmp_eq_gt_iff.mpr h]
            rfl

/-! ## Lengths stated in full -/

/-- Skipping what two paths have in common counts the characters that are skipped. -/
theorem skipCommonLen_length (as bs : Str) :
    skipCommonLen (min as.length bs.length) as bs
        = (min (skipCommon as bs).1.length (skipCommon as bs).2.length, skipCommon as bs)
      ∧ as.length + (skipCommon as bs).2.length = bs.length + (skipCommon as bs).1.length := by
  induction as generalizing bs with
  | nil => cases bs <;> exact ⟨by simp [skipCommonLen, skipCommon], by simp [skipCommon]⟩
  | cons a as ih =>
    cases bs with
    | nil => exact ⟨by simp [skipCommonLen, skipCommon], by simp [skipCommon]⟩
    | cons b bs =>
      obtain ⟨hskip, hlen⟩ := ih bs
      rw [List.length_cons, List.length_cons, Nat.succ_min_succ, skipCommonLen, skipCommon]
      split
      · exact ⟨hskip, by omega⟩
      · exact ⟨by rw [List.length_cons, List.length_cons, Nat.succ_min_succ], by simp; omega⟩

theorem lenWithoutLeading_length (path : Str) :
    lenWithoutLeading path path.length = (path.dropWhile (· = '/')).length := by
  have hlen := congrArg List.length (List.takeWhile_append_dropWhile (p := (· = '/')) (l := path))
  rw [List.length_append] at hlen
  rw [lenWithoutLeading, ← hlen]
  exact (if_pos (Nat.le_add_right _ _)).trans (Nat.add_sub_cancel_left _ _)

theorem skipSeparators_eq_nil_iff {path : Str} : skipSeparators path = [] ↔ path = [] := by
  induction path using skipSeparators.induct with
  | case1 rest ih =>
    rw [skipSeparators, ih]
    exact ⟨fun h => (by cases h), fun h => (by cases h)⟩
  | case2 path h =>
    rw [skipSeparators]
    exact h

/-- **With its lengths stated in full**, a path is compared as a whole. -/
theorem gotPathCmpLen_length (path1 path2 : Str) :
    gotPathCmpLen path1 path2 path1.length path2.length = gotPathCmp path1 path2 := by
  obtain ⟨hskip, hlen⟩ :=
    skipCommonLen_length (path1.dropWhile (· = '/')) (path2.dropWhile (· = '/'))
  unfold gotPathCmpLen gotPathCmp
  rw [lenWithoutLeading_length, lenWithoutLeading_length]
  dsimp only
  rw [hskip]
  generalize skipCommon (path1.dropWhile (· = '/')) (path2.dropWhile (· = '/')) = rest at hlen ⊢
  obtain ⟨rest1, rest2⟩ := rest
  dsimp only at hlen ⊢
  by_cases hnil : rest1 = [] ∧ rest2 = []
  · obtain ⟨rfl, rfl⟩ := hnil
    simp at hlen ⊢
    exact fun h => absurd hlen h
  · have hne : ¬(skipSeparators rest1 = [] ∧ skipSeparators rest2 = []) := by
      rwa [skipSeparators_eq_nil_iff, skipSeparators_eq_nil_iff]
    have hpair : (rest1, rest2) ≠ ([], []) := fun h => hnil (Prod.mk.inj h)
    have hlens : ¬((path1.dropWhile (· = '/')).length = (path2.dropWhile (· = '/')).length
        ∧ min rest1.length rest2.length = 0) := by
      rintro ⟨heq, hmin⟩
      rw [← List.length_eq_zero_iff, ← List.length_eq_zero_iff] at hnil
      omega
    rw [if_neg hlens, if_neg hpair]
    unfold cmpRest
    generalize skipSeparators rest1 = xs at hne ⊢
    generalize skipSeparators rest2 = ys at hne ⊢
    cases xs with
    | nil =>
      cases ys with
      | nil => exact absurd ⟨rfl, rfl⟩ hne
      | cons b ys => by_cases hb : b = '/' <;> cases ys <;> simp [hb]
    | cons a xs =>
      cases ys with
      | nil => by_cases ha : a = '/' <;> cases xs <;> simp [ha]
      | cons b ys => by_cases ha : a = '/' <;> by_cases hb : b = '/' <;> simp [ha, hb]

end Got

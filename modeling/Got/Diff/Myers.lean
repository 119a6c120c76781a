import Mathlib.Logic.Function.Basic
import Got.Diff.Chunk
import Got.Lib.EditGraph

/-!
# Myers' algorithm

The algorithm walks through the edit graph, column by column, until the end of
the graph is reached, and remembers how far it got on each diagonal. Then it
goes back on the way it came, and at last forwards again, to turn that way into
chunks.

On the way back it decides anew from which diagonal it came, by a condition that
is not quite the one that it used before. `fromLeft_iff` shows that it makes no
difference.
-/

namespace Got

open EditGraph

/-- Whether the atoms at a position are the same. The coordinates are relative
to the parts of the files at hand. -/
def DiffState.same (root : DiffRoot) (state : DiffState) (x y : ℤ) : Bool :=
  root.same (state.left.start + x.toNat) (state.right.start + y.toNat)

/-- The diagonals on which one can be after `d` steps, in the order in which they
are visited. -/
def diagonals (d : ℕ) : List ℤ := (List.range (d + 1)).map (fun (i : ℕ) => (d : ℤ) - 2 * i)

/-- How far one got on each diagonal, which is -1 where one never was. -/
abbrev Column := ℤ → ℤ

section Walk

variable (same : ℤ → ℤ → Bool) (m n : ℤ)

/-- The loop over the diagonals. If the end is found, it is left with the
diagonal. -/
def myersColumn (d : ℕ) (prev : Column) : List ℤ → Column → Option ℤ × Column
  | [], col => (none, col)
  | k :: ks, col =>
    if k < -n ∨ k > m then
      -- this diagonal is outside of the graph, and if it is below, so are all others
      if k < 0 then (none, col) else myersColumn d prev ks col
    else
      let x := slide same m n (if d = 0 then 0 else start n prev d k) k
      let col := Function.update col k x
      if x = m ∧ x - k = n then (some k, col) else myersColumn d prev ks col

/-- The loop over the columns, of which there are `fuel` left. The last column is
the head of the list. -/
def myersColumns : ℕ → ℕ → List Column → Option ℤ × List Column
  | 0, _, cols => (none, cols)
  | fuel + 1, d, cols =>
    match myersColumn same m n d (cols.headD fun _ => -1) (diagonals d) (fun _ => -1) with
    | (some k, col) => (some k, col :: cols)
    | (none, col) => myersColumns fuel (d + 1) (col :: cols)

/-- **The way back**: where one was in each column. -/
def myersBacktrack : List Column → ℤ → List (ℤ × ℤ) → List (ℤ × ℤ)
  | [], _, track => track
  | [col], k, track => (col k, col k - k) :: track
  | col :: prev :: cols, k, track =>
    let x := col k
    let y := x - k
    let k := if y = 0 ∨ x > 0 ∧ prev (k - 1) ≥ prev (k + 1) then k - 1 else k + 1
    myersBacktrack (prev :: cols) k ((x, y) :: track)

end Walk

/-- Add the chunks on the way from one position to the next. None if there is no
such way. -/
def myersAddTrack (state : DiffState) (x y nextX nextY : ℤ) : Option DiffState :=
  let l := state.left.start + x.toNat
  let r := state.right.start + y.toNat
  let leftLen := nextX - x
  let rightLen := nextY - y
  if leftLen ≠ 0 ∧ rightLen ≠ 0 then
    if leftLen = rightLen + 1 then
      let state := diffStateAddChunk state ⟨true, l, 1, r, 0⟩
      some (diffStateAddChunk state ⟨true, l + 1, (leftLen - 1).toNat, r, rightLen.toNat⟩)
    else if rightLen = leftLen + 1 then
      let state := diffStateAddChunk state ⟨true, l, 0, r, 1⟩
      some (diffStateAddChunk state ⟨true, l, leftLen.toNat, r + 1, (rightLen - 1).toNat⟩)
    else if leftLen ≠ rightLen then none
    else some (diffStateAddChunk state ⟨true, l, leftLen.toNat, r, rightLen.toNat⟩)
  else if leftLen ≠ 0 then some (diffStateAddChunk state ⟨true, l, leftLen.toNat, r, 0⟩)
  else if rightLen ≠ 0 then some (diffStateAddChunk state ⟨true, l, 0, r, rightLen.toNat⟩)
  else some state

/-- **Forwards again**, from a position on. -/
def myersForward (state : DiffState) : ℤ → ℤ → List (ℤ × ℤ) → DiffRc × DiffState
  | _, _, [] => (.ok, state)
  | x, y, (nextX, nextY) :: track =>
    match myersAddTrack state x y nextX nextY with
    | none => (.useDiffAlgoFallback, state)
    | some state => myersForward state nextX nextY track

/-- The size of an `int`. -/
def sizeofInt : ℕ := 4

/-- **`diff_algo_myers`**. In the source `max` is an `unsigned int`, in which the length of a column
is computed as well, so this is the code for two files that have fewer than `2 ^ 31` atoms together.
From there on the sum wraps around. (From `2 ^ 30` on the size of the state, a `size_t`, does, and
then there is no memory of that size.) -/
def diffAlgoMyers (root : DiffRoot) (permittedStateSize : ℕ) (state : DiffState) :
    DiffRc × DiffState :=
  let max := state.left.len + state.right.len
  let kdLen := max + 1 + max
  let kdStateSize := kdLen * kdLen * sizeofInt
  if kdStateSize > permittedStateSize then (.useDiffAlgoFallback, state)
  else
    match myersColumns (state.same root) state.left.len state.right.len (max + 1) 0 [] with
    | (none, _) => (.ok, state)
    | (some k, cols) => myersForward state 0 0 (myersBacktrack cols k [])

/-! ## The columns -/

section Walk

variable {same : ℤ → ℤ → Bool} {m n : ℤ} {d : ℕ} {k k' x y : ℤ} {prev col : Column} {ks : List ℤ}

/-- The diagonals of a step are every other one up to its distance. -/
theorem mem_diagonals : k ∈ diagonals d ↔ -d ≤ k ∧ k ≤ d ∧ (d - k) % 2 = 0 := by
  simp only [diagonals, List.mem_map, List.mem_range]
  constructor
  · rintro ⟨i, hi, rfl⟩
    omega
  · rintro ⟨h1, h2, h3⟩
    exact ⟨((d - k) / 2).toNat, by omega, by omega⟩

theorem pairwise_diagonals (d : ℕ) : (diagonals d).Pairwise (fun a b => b < a) := by
  rw [diagonals, List.pairwise_map]
  exact List.pairwise_lt_range.imp fun h => by omega

theorem inRange_iff : InRange m n d k ↔ k ∈ diagonals d ∧ ¬(k < -n ∨ k > m) := by
  rw [mem_diagonals, InRange]
  omega

section

variable (hm : 0 ≤ m) (hn : 0 ≤ n)

include hm hn

variable (col) in
/-- **One column**, if it is not left before its end, is how far one gets with as
many steps. If it is left, then at the end of the graph. -/
theorem myersColumn_spec (hks : ks.Pairwise (fun a b => b < a)) (hdiag : ∀ k ∈ ks, k ∈ diagonals d)
    (hprev : ∀ e, d = e + 1 → prev = reach same m n e) :
    (∀ k, k ∉ ks → (myersColumn same m n d prev ks col).2 k = col k)
      ∧ ((myersColumn same m n d prev ks col).1 = none →
        (∀ k ∈ ks, col k = -1 → (myersColumn same m n d prev ks col).2 k = reach same m n d k)
          ∧ (m - n ∈ ks → reach same m n d (m - n) ≠ m))
      ∧ ∀ k, (myersColumn same m n d prev ks col).1 = some k →
        k = m - n ∧ (myersColumn same m n d prev ks col).2 k = m ∧ reach same m n d k = m := by
  induction ks generalizing col with
  | nil => exact ⟨fun _ _ => rfl, fun _ => ⟨fun _ h => absurd h List.not_mem_nil,
      fun h => absurd h List.not_mem_nil⟩, fun _ h => nomatch h⟩
  | cons k ks ih =>
    obtain ⟨hlt, hks⟩ := List.pairwise_cons.mp hks
    have ih := fun col => ih col hks fun k hk => hdiag k (List.mem_cons_of_mem _ hk)
    have hk := hdiag k List.mem_cons_self
    rw [myersColumn]
    split
    · next hout =>
      have hreach : ∀ k', k' ∈ diagonals d → k' < -n ∨ k' > m → reach same m n d k' = -1 :=
        fun k' hk' hout' => reach_of_not_inRange (fun h => (inRange_iff.mp h).2 hout') hm hn
      split
      · next hneg =>
        -- all that is left is outside of the graph
        have hall : ∀ k' ∈ k :: ks, k' < -n := by
          intro k' hk'
          rcases List.mem_cons.mp hk' with rfl | hk'
          · omega
          · have := hlt k' hk'
            omega
        refine ⟨fun _ _ => rfl, fun _ => ⟨fun k' hk' hcol => ?_, fun hmem => ?_⟩,
          fun _ h => nomatch h⟩
        · exact hcol.trans (hreach k' (hdiag k' hk') (Or.inl (hall k' hk'))).symm
        · have := hall _ hmem
          omega
      · obtain ⟨hother, hnone, hsome⟩ := ih col
        refine ⟨fun k' hk' => hother k' fun h => hk' (List.mem_cons_of_mem _ h), fun h => ?_, hsome⟩
        refine ⟨fun k' hk' hcol => ?_, fun hmem => ?_⟩
        · rcases List.mem_cons.mp hk' with rfl | hk'
          · rw [hother k' fun h => absurd (hlt k' h) (lt_irrefl _), hcol, hreach k' hk hout]
          · exact (hnone h).1 k' hk' hcol
        · rcases List.mem_cons.mp hmem with heq | hmem
          · omega
          · exact (hnone h).2 hmem
    · next hin =>
      have hx : slide same m n (if d = 0 then 0 else start n prev d k) k = reach same m n d k := by
        cases d with
        | zero =>
          obtain rfl : k = 0 := by
            have := mem_diagonals.mp hk
            push_cast at this
            omega
          rw [if_pos rfl, reach_zero]
        | succ e =>
          rw [if_neg (Nat.succ_ne_zero e), hprev e rfl, reach_succ (inRange_iff.mpr ⟨hk, hin⟩)]
      rw [hx]
      dsimp only
      split
      · next hend =>
        obtain ⟨hend, hend'⟩ := hend
        refine ⟨fun k' hk' => Function.update_of_ne
          (fun h : k' = k => hk' (h ▸ List.mem_cons_self)) _ _,
          fun h => (nomatch h), fun k' h => ?_⟩
        obtain rfl := Option.some.inj h
        exact ⟨by omega, (Function.update_self _ _ _).trans hend, hend⟩
      · next hend =>
        obtain ⟨hother, hnone, hsome⟩ := ih (Function.update col k (reach same m n d k))
        have hupdate : ∀ k', k' ≠ k → Function.update col k (reach same m n d k) k' = col k' :=
          fun k' hne => Function.update_of_ne hne _ _
        refine ⟨fun k' hk' => ?_, fun h => ⟨fun k' hk' hcol => ?_, fun hmem heq => ?_⟩, hsome⟩
        · rw [hother k' fun h => hk' (List.mem_cons_of_mem _ h),
            hupdate k' fun h => hk' (h ▸ List.mem_cons_self)]
        · rcases List.mem_cons.mp hk' with rfl | hk'
          · rw [hother k' fun h => absurd (hlt k' h) (lt_irrefl _), Function.update_self]
          · refine (hnone h).1 k' hk' ?_
            rw [hupdate k' fun h => absurd (hlt k' hk') (h ▸ lt_irrefl _), hcol]
        · rcases List.mem_cons.mp hmem with hk' | hmem
          · exact hend ⟨hk' ▸ heq, by rw [← hk', heq]; omega⟩
          · exact (hnone h).2 hmem heq

/-- The columns after some steps. -/
def reachColumns (same : ℤ → ℤ → Bool) (m n : ℤ) : ℕ → List Column
  | 0 => []
  | d + 1 => reach same m n d :: reachColumns same m n d

/-- **The columns up to the first one that gets to the end.** -/
theorem myersColumns_spec {D fuel : ℕ} (hend : reach same m n D (m - n) = m)
    (hmin : ∀ e < D, reach same m n e (m - n) ≠ m) (hd : d ≤ D) (hfuel : D < d + fuel) :
    ∃ col : Column, col (m - n) = m ∧ myersColumns same m n fuel d (reachColumns same m n d)
      = (some (m - n), col :: reachColumns same m n D) := by
  induction fuel generalizing d with
  | zero => omega
  | succ fuel ih =>
    have hprev : ∀ e, d = e + 1 →
        (reachColumns same m n d).headD (fun _ => -1) = reach same m n e := by
      rintro e rfl
      rfl
    obtain ⟨hother, hnone, hsome⟩ := myersColumn_spec (fun _ => -1) hm hn
      (pairwise_diagonals d) (fun _ hk => hk) hprev
    rw [myersColumns]
    cases hres : myersColumn same m n d ((reachColumns same m n d).headD fun _ => -1) (diagonals d)
        (fun _ => -1) with
    | mk found col =>
      rw [hres] at hother hnone hsome
      cases found with
      | some k =>
        obtain ⟨rfl, hcol, hreach⟩ := hsome k rfl
        obtain rfl : d = D := by
          by_contra hne
          exact hmin d (lt_of_le_of_ne hd hne) hreach
        exact ⟨col, hcol, rfl⟩
      | none =>
        obtain ⟨hcol, hnot⟩ := hnone rfl
        have hlt : d < D := by
          refine lt_of_le_of_ne hd fun heq => ?_
          subst heq
          have hin := inRange_of_reach hm hn (hm.trans_eq hend.symm)
          exact hnot (inRange_iff.mp hin).1 hend
        have hcol : col = reach same m n d := by
          funext k
          by_cases hk : k ∈ diagonals d
          · exact hcol k hk rfl
          · refine (hother k hk).trans (Eq.symm ?_)
            exact reach_of_not_inRange (fun h => hk (inRange_iff.mp h).1) hm hn
        rw [hcol]
        exact ih hlt (by omega)

end

/-! ## The way back -/

/-- From one position to the next: a step, or none, and then a slide. -/
def IsSegment (same : ℤ → ℤ → Bool) (x y x' y' : ℤ) : Prop :=
  ∃ sx sy, (sx = x ∧ sy = y ∨ sx = x + 1 ∧ sy = y ∨ sx = x ∧ sy = y + 1)
    ∧ sx ≤ x' ∧ x' - sx = y' - sy ∧ ∀ z, sx ≤ z → z < x' → same z (z - sx + sy) = true

/-- **A way through the graph**, from one position to another. -/
def IsTrack (same : ℤ → ℤ → Bool) : ℤ → ℤ → List (ℤ × ℤ) → ℤ → ℤ → Prop
  | x, y, [], x', y' => x = x' ∧ y = y'
  | x, y, p :: track, x', y' => IsSegment same x y p.1 p.2 ∧ IsTrack same p.1 p.2 track x' y'

/-- A track is extended by a segment that begins where it ends. -/
theorem IsTrack.append {track : List (ℤ × ℤ)} {x₁ y₁ x₂ y₂ : ℤ}
    (h : IsTrack same x y track x₁ y₁) (h' : IsSegment same x₁ y₁ x₂ y₂) :
    IsTrack same x y (track ++ [(x₂, y₂)]) x₂ y₂ := by
  induction track generalizing x y with
  | nil =>
    obtain ⟨rfl, rfl⟩ := h
    exact ⟨h', rfl, rfl⟩
  | cons p track ih => exact ⟨h.1, ih h.2⟩

section

variable (hm : 0 ≤ m) (hn : 0 ≤ n) (hmn : 0 < m + n)

include hm hn hmn

/-- **It is decided as before** from which diagonal one came. -/
theorem fromLeft_iff (h : InRange m n (d + 1) k) :
    (reach same m n (d + 1) k - k = 0 ∨ reach same m n (d + 1) k > 0
        ∧ reach same m n d (k - 1) ≥ reach same m n d (k + 1))
      ↔ FromLeft n (reach same m n d) (d + 1) k := by
  have hnonneg := fun k' h' => (reach_nonneg same hm hn hmn (d := d) (k := k') h').1
  have hslide := slide_le same m n (start n (reach same m n d) (d + 1) k) k
  rw [← reach_succ h] at hslide
  rcases start_spec same hm hn hmn h hnonneg with ⟨hleft, hin, heq, hle⟩ | ⟨hleft, hin, heq, hlt⟩
  · have := hnonneg _ hin
    exact iff_of_true (Or.inr ⟨by omega, hle⟩) hleft
  · have := (reach_nonneg same hm hn hmn hin).2.1
    refine iff_of_false (fun hor => ?_) hleft
    omega

/-- One column is a segment on from the last. -/
theorem isSegment_reach (h : InRange m n (d + 1) k) :
    IsSegment same (reach same m n d (if FromLeft n (reach same m n d) (d + 1) k then k - 1
      else k + 1))
      (reach same m n d (if FromLeft n (reach same m n d) (d + 1) k then k - 1 else k + 1)
        - (if FromLeft n (reach same m n d) (d + 1) k then k - 1 else k + 1))
      (reach same m n (d + 1) k) (reach same m n (d + 1) k - k) := by
  have hslide := slide_le same m n (start n (reach same m n d) (d + 1) k) k
  have hsame : ∀ z, start n (reach same m n d) (d + 1) k ≤ z →
      z < slide same m n (start n (reach same m n d) (d + 1) k) k → same z (z - k) = true :=
    fun _ => same_of_slide
  rw [← reach_succ h] at hslide hsame
  refine ⟨_, start n (reach same m n d) (d + 1) k - k, Or.inr ?_, hslide, by omega,
    fun z hz hlt => ?_⟩
  · rcases start_spec same hm hn hmn h fun k' h' => (reach_nonneg same hm hn hmn h').1 with
      ⟨hleft, -, heq, -⟩ | ⟨hleft, -, heq, -⟩
    · rw [if_pos hleft]
      omega
    · rw [if_neg hleft]
      omega
  · have heq : z - start n (reach same m n d) (d + 1) k + (start n (reach same m n d) (d + 1) k - k)
        = z - k := by omega
    rw [heq]
    exact hsame z hz hlt

omit hmn in
/-- **The way back is a way through the graph**, with a position in each column. -/
theorem myersBacktrack_spec (hmn : d = 0 ∨ 0 < m + n) (hin : InRange m n d k)
    (hcol : col k = reach same m n d k) (track : List (ℤ × ℤ)) :
    ∃ before, myersBacktrack (col :: reachColumns same m n d) k track = before ++ track
      ∧ IsTrack same 0 0 before (reach same m n d k) (reach same m n d k - k)
      ∧ before.length = d + 1 := by
  induction d generalizing k col track with
  | zero =>
    obtain rfl : k = 0 := by
      obtain ⟨h1, h2, -⟩ := hin
      push_cast at h1 h2
      omega
    refine ⟨[(reach same m n 0 0, reach same m n 0 0 - 0)], ?_,
      ⟨⟨0, 0, Or.inl ⟨rfl, rfl⟩, ?_, ?_, ?_⟩, rfl, rfl⟩, rfl⟩
    · rw [← hcol]
      rfl
    · rw [reach_zero]
      exact slide_le same m n 0 0
    · dsimp only
      omega
    · intro z hz hlt
      rw [reach_zero] at hlt
      rw [Int.add_zero]
      exact same_of_slide hz hlt
  | succ d ih =>
    have hmn := hmn.resolve_left d.succ_ne_zero
    have hin' : InRange m n d (if FromLeft n (reach same m n d) (d + 1) k then k - 1
      else k + 1) := by
      rcases start_spec same hm hn hmn hin fun k' h' => (reach_nonneg same hm hn hmn h').1 with
        ⟨hleft, hin', -⟩ | ⟨hleft, hin', -⟩
      · rwa [if_pos hleft]
      · rwa [if_neg hleft]
    obtain ⟨before, heq, htrack, hlen⟩ := ih (Or.inr hmn) hin' rfl
      ((reach same m n (d + 1) k, reach same m n (d + 1) k - k) :: track)
    refine ⟨before ++ [(reach same m n (d + 1) k, reach same m n (d + 1) k - k)], ?_,
      htrack.append (isSegment_reach hm hn hmn hin), by rw [List.length_append, hlen]; rfl⟩
    rw [reachColumns, myersBacktrack, hcol]
    rw [if_congr (fromLeft_iff hm hn hmn hin) rfl rfl, heq, List.append_assoc]
    rfl

end

end Walk

/-! ## Forwards again -/

variable {root : DiffRoot} {state : DiffState} {x y x' y' : ℤ}

/-- A segment is added. -/
theorem myersAddTrack_spec
    (hat : state.At root (state.left.start + x.toNat) (state.right.start + y.toNat))
    (hx : 0 ≤ x) (hy : 0 ≤ y) (hseg : IsSegment (state.same root) x y x' y') :
    ∃ state', myersAddTrack state x y x' y' = some state'
      ∧ state'.At root (state.left.start + x'.toNat) (state.right.start + y'.toNat)
      ∧ state'.left = state.left ∧ state'.right = state.right := by
  obtain ⟨sx, sy, hstep, hle, hlen, hsame⟩ := hseg
  obtain ⟨len, hxlen⟩ : ∃ len : ℕ, x' = sx + len := ⟨(x' - sx).toNat, by omega⟩
  have hylen : y' = sy + len := by omega
  have hatoms : ∀ i < len, root.same (state.left.start + sx.toNat + i)
      (state.right.start + sy.toNat + i) = true := by
    intro i hi
    have h := hsame (sx + i) (by omega) (by omega)
    rw [add_sub_cancel_left, DiffState.same] at h
    have h1 : (sx + i).toNat = sx.toNat + i := by omega
    have h2 : (i + sy).toNat = sy.toNat + i := by omega
    rwa [h1, h2, ← Nat.add_assoc, ← Nat.add_assoc] at h
  clear hsame
  have hend : state.left.start + x'.toNat = state.left.start + sx.toNat + len
      ∧ state.right.start + y'.toNat = state.right.start + sy.toNat + len := by
    omega
  rw [hend.1, hend.2]
  unfold myersAddTrack
  rcases hstep with ⟨rfl, rfl⟩ | ⟨rfl, rfl⟩ | ⟨rfl, rfl⟩
  · -- there is no step
    have h1 : x' - sx = len := by omega
    have h2 : y' - sy = len := by omega
    rw [h1, h2]
    by_cases hzero : len = 0
    · subst hzero
      exact ⟨state, rfl, hat, rfl, rfl⟩
    · refine ⟨_, by rw [if_pos (by omega), if_neg (by omega), if_neg (by omega), if_neg (by omega),
        Int.toNat_natCast], hat.addSame hzero hatoms, left_addChunk _ _, right_addChunk _ _⟩
  · -- a step to the right
    have h1 : x' - x = len + 1 := by omega
    have h2 : y' - sy = len := by omega
    have h3 : state.left.start + (x + 1).toNat = state.left.start + x.toNat + 1 := by omega
    rw [h1, h2]
    rw [h3] at hatoms ⊢
    have hstep := hat.addMinus one_ne_zero
    by_cases hzero : len = 0
    · subst hzero
      exact ⟨_, rfl, hstep, left_addChunk _ _, right_addChunk _ _⟩
    · have h4 : ((len : ℤ) + 1 - 1).toNat = len := by omega
      refine ⟨_, by rw [if_pos (by omega), if_pos rfl, h4, Int.toNat_natCast],
        hstep.addSame hzero hatoms, ?_, ?_⟩
      · rw [left_addChunk, left_addChunk]
      · rw [right_addChunk, right_addChunk]
  · -- a step downwards
    have h1 : x' - sx = len := by omega
    have h2 : y' - y = len + 1 := by omega
    have h3 : state.right.start + (y + 1).toNat = state.right.start + y.toNat + 1 := by omega
    rw [h1, h2]
    rw [h3] at hatoms ⊢
    have hstep := hat.addPlus one_ne_zero
    by_cases hzero : len = 0
    · subst hzero
      exact ⟨_, rfl, hstep, left_addChunk _ _, right_addChunk _ _⟩
    · have h4 : ((len : ℤ) + 1 - 1).toNat = len := by omega
      refine ⟨_, by rw [if_pos (by omega), if_neg (by omega), if_pos rfl, h4, Int.toNat_natCast],
        hstep.addSame hzero hatoms, ?_, ?_⟩
      · rw [left_addChunk, left_addChunk]
      · rw [right_addChunk, right_addChunk]

/-- **A way through the graph is turned into chunks.** -/
theorem myersForward_spec {track : List (ℤ × ℤ)}
    (hat : state.At root (state.left.start + x.toNat) (state.right.start + y.toNat))
    (hx : 0 ≤ x) (hy : 0 ≤ y) (htrack : IsTrack (state.same root) x y track x' y') :
    ∃ state', myersForward state x y track = (.ok, state')
      ∧ state'.At root (state.left.start + x'.toNat) (state.right.start + y'.toNat) := by
  induction track generalizing state x y with
  | nil =>
    obtain ⟨rfl, rfl⟩ := htrack
    exact ⟨state, rfl, hat⟩
  | cons p track ih =>
    obtain ⟨hseg, htrack⟩ := htrack
    obtain ⟨state', heq, hat', hleft, hright⟩ := myersAddTrack_spec hat hx hy hseg
    have hsame : state'.same root = state.same root := by
      unfold DiffState.same
      rw [hleft, hright]
    rw [← hleft, ← hright] at hat' ⊢
    rw [← hsame] at htrack
    obtain ⟨sx, sy, hstep, hle, hlen, -⟩ := hseg
    rw [myersForward, heq]
    exact ih hat' (by omega) (by omega) htrack

/-- **The way that is found**: it has a position for each of the columns up to the first one that
gets to the end. -/
theorem exists_myersTrack (same : ℤ → ℤ → Bool) (m n : ℕ) :
    ∃ (D : ℕ) (cols : List Column) (track : List (ℤ × ℤ)),
      myersColumns same m n (m + n + 1) 0 [] = (some ((m : ℤ) - n), cols)
        ∧ myersBacktrack cols ((m : ℤ) - n) [] = track ∧ IsTrack same 0 0 track m n
        ∧ track.length = D + 1 ∧ reach same m n D ((m : ℤ) - n) = m
        ∧ ∀ e < D, reach same m n e ((m : ℤ) - n) ≠ m := by
  have hm : (0 : ℤ) ≤ m := Int.natCast_nonneg m
  have hn : (0 : ℤ) ≤ n := Int.natCast_nonneg n
  obtain ⟨D, hD, hend, hmin⟩ : ∃ D : ℕ, D ≤ m + n ∧ reach same m n D ((m : ℤ) - n) = m
      ∧ ∀ e < D, reach same m n e ((m : ℤ) - n) ≠ m := by
    have hex : ∃ d, reach same m n d ((m : ℤ) - n) = m :=
      (exists_reach_eq same hm hn).imp fun _ h => h.2
    classical
    obtain ⟨d, hd, hreach⟩ := exists_reach_eq same hm hn
    have := Nat.find_min' hex hreach
    exact ⟨Nat.find hex, by omega, Nat.find_spec hex, fun e he => Nat.find_min hex he⟩
  have hfuel : D < 0 + (m + n + 1) := by omega
  obtain ⟨col, hcol, hcols⟩ := myersColumns_spec hm hn hend hmin (Nat.zero_le D) hfuel
  obtain ⟨before, hback, htrack, hlen⟩ := myersBacktrack_spec hm hn (by omega)
    (inRange_of_reach hm hn (hm.trans_eq hend.symm)) (hcol.trans hend.symm) []
  rw [hend, sub_sub_cancel] at htrack
  exact ⟨D, _, before, hcols, hback.trans (List.append_nil _), htrack, hlen, hend, hmin⟩

/-- **`diff_algo_myers` solves what it is given**, or leaves it alone. -/
theorem diffAlgoMyers_spec {permittedStateSize : ℕ}
    (hat : state.At root state.left.start state.right.start) :
    diffAlgoMyers root permittedStateSize state = (.useDiffAlgoFallback, state)
      ∨ ∃ state', diffAlgoMyers root permittedStateSize state = (.ok, state')
        ∧ state'.At root (state.left.start + state.left.len)
          (state.right.start + state.right.len) := by
  unfold diffAlgoMyers
  dsimp only
  split
  · exact Or.inl rfl
  · obtain ⟨D, cols, track, hcols, rfl, htrack, -⟩ :=
      exists_myersTrack (state.same root) state.left.len state.right.len
    rw [hcols]
    exact Or.inr (myersForward_spec hat le_rfl le_rfl htrack)

/-! ## Nothing is left unsolved -/

/-- One step of the way back leaves no unsolved chunk at all. -/
theorem myersAddTrack_leaves {state' : DiffState} {count : ℕ} (h : state.Leaves count)
    (heq : myersAddTrack state x y x' y' = some state') : state'.Leaves count := by
  unfold myersAddTrack at heq
  dsimp only at heq
  split at heq
  · split at heq
    · exact Option.some.inj heq ▸ (h.addSolved _ _ _ _).addSolved _ _ _ _
    · split at heq
      · exact Option.some.inj heq ▸ (h.addSolved _ _ _ _).addSolved _ _ _ _
      · split at heq
        · exact nomatch heq
        · exact Option.some.inj heq ▸ h.addSolved _ _ _ _
  · split at heq
    · exact Option.some.inj heq ▸ h.addSolved _ _ _ _
    · split at heq
      · exact Option.some.inj heq ▸ h.addSolved _ _ _ _
      · exact Option.some.inj heq ▸ h

/-- The whole way back leaves no unsolved chunk either. -/
theorem myersForward_leaves {track : List (ℤ × ℤ)} {count : ℕ} (h : state.Leaves count) :
    (myersForward state x y track).2.Leaves count := by
  induction track generalizing state x y with
  | nil => exact h
  | cons p track ih =>
    rw [myersForward]
    split
    · exact h
    · next heq => exact ih (myersAddTrack_leaves h heq)

/-- **`diff_algo_myers` leaves nothing unsolved.** -/
theorem diffAlgoMyers_leaves {permittedStateSize count : ℕ} (h : state.Leaves count) :
    (diffAlgoMyers root permittedStateSize state).2.Leaves count := by
  unfold diffAlgoMyers
  dsimp only
  split
  · exact h
  · split
    · exact h
    · exact myersForward_leaves h

end Got

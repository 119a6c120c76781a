import Got.Diff.Myers
import Got.Lib.EditDistance

/-!
# What Myers' algorithm finds is shortest

The atoms that are removed and added are those of the chunks with atoms on one side only.
Joining chunks and moving them past each other does not change how many there are
(`edits_addChunk`).

On the way through the graph there is one of them for each column behind the first, at most,
and as the columns end as soon as the end of the graph can be reached there are no more of
them than on any other way (`diffAlgoMyers_edits`).
-/

namespace Got

open EditGraph

/-! ## Removed and added atoms -/

/-- The atoms that a chunk removes or adds. -/
def DiffChunk.edits (c : DiffChunk) : ℕ :=
  if c.type = .minus then c.leftCount else if c.type = .plus then c.rightCount else 0

/-- The atoms that chunks remove and add. -/
def chunkEdits (chunks : List DiffChunk) : ℕ := (chunks.map DiffChunk.edits).sum

/-- **The atoms that are removed and added** by all chunks of an algorithm. -/
def DiffState.edits (state : DiffState) : ℕ :=
  chunkEdits state.result + chunkEdits state.tempResult

variable {state state' : DiffState} {c last : DiffChunk}

/-- Joined chunks remove and add what both of them do. -/
theorem DiffChunk.edits_join (h : c.type = last.type) :
    (last.join c).edits = last.edits + c.edits := by
  obtain ⟨solved, l, lc, r, rc⟩ := last
  obtain ⟨solved', l', lc', r', rc'⟩ := c
  have hzero : ∀ a b : ℕ, a + b = 0 ↔ a = 0 ∧ b = 0 := fun a b => by omega
  unfold type at h
  unfold edits join type
  simp only [hzero]
  cases solved <;> cases solved' <;> simp only [reduceCtorEq] at h ⊢ <;> grind

theorem chunkEdits_cons (c : DiffChunk) (chunks : List DiffChunk) :
    chunkEdits (c :: chunks) = c.edits + chunkEdits chunks := by
  rw [chunkEdits, List.map_cons, List.sum_cons]
  rfl

theorem chunkEdits_append (chunks : List DiffChunk) (c : DiffChunk) :
    chunkEdits (chunks ++ [c]) = chunkEdits chunks + c.edits := by
  rw [chunkEdits, List.map_append, List.sum_append]
  rfl

/-- **Nothing is lost** when a solved chunk is added. -/
theorem chunkEdits_addSolvedChunk (result : List DiffChunk) (c : DiffChunk) :
    chunkEdits (diffStateAddSolvedChunk result c) = chunkEdits result + c.edits := by
  unfold diffStateAddSolvedChunk
  -- moving a chunk does not change its atoms
  have hleft : ∀ (c : DiffChunk) (l : ℕ), ({ c with leftStart := l } : DiffChunk).edits = c.edits :=
    fun _ _ => rfl
  have hright : ∀ (c : DiffChunk) (r : ℕ),
    ({ c with rightStart := r } : DiffChunk).edits = c.edits :=
    fun _ _ => rfl
  cases result with
  | nil => exact Nat.add_comm _ _
  | cons last rest =>
    dsimp only
    split
    · next htype =>
      rw [chunkEdits_cons, chunkEdits_cons, DiffChunk.edits_join htype]
      omega
    split
    · next hswap =>
      cases rest with
      | nil =>
        simp only [chunkEdits_cons, hleft, hright]
        omega
      | cons prev rest' =>
        dsimp only
        split
        · next htype =>
          simp only [chunkEdits_cons, hleft, DiffChunk.edits_join (hswap.2.trans htype.symm)]
          omega
        · simp only [chunkEdits_cons, hleft, hright]
          omega
    · rw [chunkEdits_cons, chunkEdits_cons]
      omega

/-- **Each chunk counts**, wherever it is added. -/
theorem edits_addChunk (state : DiffState) (c : DiffChunk) :
    (diffStateAddChunk state c).edits = state.edits + c.edits := by
  unfold diffStateAddChunk DiffState.edits
  split
  · rw [chunkEdits_append, Nat.add_assoc]
  · dsimp only
    rw [chunkEdits_addSolvedChunk]
    omega

/-- What a solved chunk removes and adds. -/
theorem edits_solved (l leftCount r rightCount : ℕ) (h : leftCount = 0 ∨ rightCount = 0
      ∨ leftCount = rightCount) :
    (⟨true, l, leftCount, r, rightCount⟩ : DiffChunk).edits
      = (leftCount - rightCount) + (rightCount - leftCount) := by
  unfold DiffChunk.edits DiffChunk.type
  grind

/-! ## On the way -/

section Track

variable {same : ℤ → ℤ → Bool} {x y x' y' : ℤ}

/-- **A segment is walked along**, with one step at most. -/
theorem IsSegment.exists_walk (h : IsSegment same x y x' y') :
    ∃ d ≤ 1, Walk same x y d x' y' ∧ d = ((x' - x) - (y' - y)).natAbs ∧ x ≤ x' ∧ y ≤ y' := by
  obtain ⟨sx, sy, hstep, hle, hlen, hsame⟩ := h
  obtain ⟨len, rfl⟩ := Int.le.dest hle
  obtain rfl : y' = sy + len := by omega
  have hslide : Walk same sx sy 0 (sx + len) (sy + len) := by
    refine Walk.slides fun i hi => ?_
    have h := hsame (sx + i) (by omega) (by omega)
    rwa [add_sub_cancel_left, add_comm (i : ℤ)] at h
  rcases hstep with ⟨rfl, rfl⟩ | ⟨rfl, rfl⟩ | ⟨rfl, rfl⟩
  · exact ⟨0, Nat.zero_le 1, hslide, by omega, by omega, by omega⟩
  · exact ⟨1, le_rfl, (Walk.refl.right).trans hslide, by omega, by omega, by omega⟩
  · exact ⟨1, le_rfl, (Walk.refl.down).trans hslide, by omega, by omega, by omega⟩

/-- **What is removed and added** on the way to the next position. -/
theorem myersAddTrack_edits (hx : x ≤ x') (hy : y ≤ y') (hd : ((x' - x) - (y' - y)).natAbs ≤ 1)
    (h : myersAddTrack state x y x' y' = some state') :
    state'.edits = state.edits + ((x' - x) - (y' - y)).natAbs := by
  obtain ⟨i, rfl⟩ := Int.le.dest hx
  obtain ⟨j, rfl⟩ := Int.le.dest hy
  unfold myersAddTrack at h
  simp only [add_sub_cancel_left] at h hd ⊢
  split at h
  · split at h
    · obtain rfl := Option.some.inj h
      rw [edits_addChunk, edits_addChunk, edits_solved _ _ _ _ (by omega),
        edits_solved _ _ _ _ (by omega)]
      omega
    split at h
    · obtain rfl := Option.some.inj h
      rw [edits_addChunk, edits_addChunk, edits_solved _ _ _ _ (by omega),
        edits_solved _ _ _ _ (by omega)]
      omega
    split at h
    · cases h
    · obtain rfl := Option.some.inj h
      rw [edits_addChunk, edits_solved _ _ _ _ (by omega)]
      omega
  split at h
  · obtain rfl := Option.some.inj h
    rw [edits_addChunk, edits_solved _ _ _ _ (by omega)]
    omega
  split at h
  · obtain rfl := Option.some.inj h
    rw [edits_addChunk, edits_solved _ _ _ _ (by omega)]
    omega
  · obtain rfl := Option.some.inj h
    omega

/-- **What is removed and added on a way through the graph** is a step each, and there is one for
each position, at most. -/
theorem myersForward_edits {track : List (ℤ × ℤ)} (htrack : IsTrack same x y track x' y')
    (h : myersForward state x y track = (.ok, state')) :
    ∃ d ≤ track.length, Walk same x y d x' y' ∧ state'.edits = state.edits + d := by
  induction track generalizing state x y with
  | nil =>
    obtain ⟨rfl, rfl⟩ := htrack
    obtain rfl := (Prod.mk.inj h).2
    exact ⟨0, le_rfl, Walk.refl, rfl⟩
  | cons p track ih =>
    obtain ⟨hseg, htrack⟩ := htrack
    obtain ⟨d, hd, hwalk, heq, hx, hy⟩ := hseg.exists_walk
    rw [myersForward] at h
    cases hadd : myersAddTrack state x y p.1 p.2 with
    | none =>
      rw [hadd] at h
      cases h
    | some state₁ =>
      rw [hadd] at h
      obtain ⟨e, he, hwalk', hedits⟩ := ih htrack h
      refine ⟨d + e, ?_, hwalk.trans hwalk', ?_⟩
      · rw [List.length_cons]
        omega
      · rw [hedits, myersAddTrack_edits hx hy (by omega) hadd, ← heq, Nat.add_assoc]

end Track

/-- **`diff_algo_myers` finds a shortest edit script**: what it removes and adds is what is left
of both files besides a longest common subsequence. Lengths are natural numbers here; they are
those of the source as long as both files have fewer than `2 ^ 31` atoms together. -/
theorem diffAlgoMyers_edits {root : DiffRoot} {permittedStateSize : ℕ}
    (h : diffAlgoMyers root permittedStateSize state = (.ok, state')) :
    state'.edits = state.edits + (state.left.len + state.right.len
      - 2 * lcs (fun i j => root.same (state.left.start + i) (state.right.start + j))
        state.left.len state.right.len) := by
  obtain ⟨D, cols, track, hcols, hback, htrack, hlen, hend, hmin⟩ :=
    exists_myersTrack (state.same root) state.left.len state.right.len
  unfold diffAlgoMyers at h
  dsimp only at h
  split at h
  · cases h
  rw [hcols] at h
  dsimp only at h
  rw [hback] at h
  obtain ⟨d, hd, hwalk, hedits⟩ := myersForward_edits htrack h
  have hm := Int.natCast_nonneg state.left.len
  have hn := Int.natCast_nonneg state.right.len
  -- there is a step for each column behind the first, as it is the same parity
  obtain ⟨-, -, hpar, -⟩ := inRange_of_reach hm hn (hm.trans_eq hend.symm)
  have hpar' := hwalk.bounds.2.2.2.2
  have hD : D ≤ d := hwalk.le_of_reach hm hn hmin
  have hd : d = D := by omega
  obtain ⟨hleast, hle⟩ := isLeast_walk (state.same root) state.left.len state.right.len
  rw [hedits]
  refine congrArg _ (le_antisymm ?_ (hle hwalk))
  rw [hd]
  exact Walk.le_of_reach hm hn hmin hleast

/-- Two lines that are swapped: one of them is removed, and added again. -/
theorem diffAlgoMyers_edits_swapped :
    (diffAlgoMyers ⟨[⟨1, [97]⟩, ⟨2, [98]⟩], [⟨2, [98]⟩, ⟨1, [97]⟩], false⟩ 400
        ⟨[], [], ⟨0, 2⟩, ⟨0, 2⟩, 0⟩).1 = .ok
      ∧ (diffAlgoMyers ⟨[⟨1, [97]⟩, ⟨2, [98]⟩], [⟨2, [98]⟩, ⟨1, [97]⟩], false⟩ 400
          ⟨[], [], ⟨0, 2⟩, ⟨0, 2⟩, 0⟩).2.edits = 2 := by
  have hok : (diffAlgoMyers ⟨[⟨1, [97]⟩, ⟨2, [98]⟩], [⟨2, [98]⟩, ⟨1, [97]⟩], false⟩ 400
        ⟨[], [], ⟨0, 2⟩, ⟨0, 2⟩, 0⟩).1 = .ok := by decide +kernel
  exact ⟨hok, diffAlgoMyers_edits (Prod.ext hok rfl)⟩

end Got

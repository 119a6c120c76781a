import Got.Diff.Main

/-!
# Changes and their context

Chunks that are not the same on both sides are changes. What is printed at once is a
range of chunks, from one change to another one, with some atoms around them that are the
same in both files (`DiffChunkContext`). Changes are put together while what is printed
of them touches.

`Hunks` says what the loops over the chunks come to: every change is in one of the
contexts, which are apart from each other, and between them there are only chunks that are
the same on both sides.
-/

namespace Got

/-! ## The loops -/

/-- `struct range`: the half-open range of lines a hunk covers. -/
structure DiffRange where
  start : ℕ
  end_ : ℕ
  deriving DecidableEq

/-- `diff_ranges_touch` -/
def diffRangesTouch (a b : DiffRange) : Prop := a.end_ ≥ b.start ∧ a.start ≤ b.end_

instance (a b : DiffRange) : Decidable (diffRangesTouch a b) :=
  inferInstanceAs (Decidable (_ ∧ _))

/-- `diff_ranges_merge` -/
def diffRangesMerge (a b : DiffRange) : DiffRange := ⟨min a.start b.start, max a.end_ b.end_⟩

/-- **What is printed at once**: a range of chunks, and of atoms on either side. -/
structure DiffChunkContext where
  chunk : DiffRange
  left : DiffRange
  right : DiffRange
  deriving DecidableEq

/-- `diff_chunk_context_get` -/
def diffChunkContextGet (root : DiffRoot) (chunkIdx : ℕ) (c : DiffChunk) (contextLines : ℕ) :
    DiffChunkContext where
  chunk := ⟨chunkIdx, chunkIdx + 1⟩
  left := ⟨c.leftStart - contextLines,
    min root.left.length (c.leftStart + c.leftCount + contextLines)⟩
  right := ⟨c.rightStart - contextLines,
    min root.right.length (c.rightStart + c.rightCount + contextLines)⟩

/-- `diff_chunk_contexts_touch` -/
def diffChunkContextsTouch (cc other : DiffChunkContext) : Prop :=
  diffRangesTouch cc.chunk other.chunk ∨ diffRangesTouch cc.left other.left
    ∨ diffRangesTouch cc.right other.right

instance (cc other : DiffChunkContext) : Decidable (diffChunkContextsTouch cc other) :=
  inferInstanceAs (Decidable (_ ∨ _ ∨ _))

/-- `diff_chunk_contexts_merge` -/
def diffChunkContextsMerge (cc other : DiffChunkContext) : DiffChunkContext where
  chunk := diffRangesMerge cc.chunk other.chunk
  left := diffRangesMerge cc.left other.left
  right := diffRangesMerge cc.right other.right

/-- Whether a chunk is looked at by the loops below. -/
def DiffChunk.isChange (c : DiffChunk) : Bool := c.type = .minus ∨ c.type = .plus

/-- **The loop of `diff_output_edscript` and `diff_output_unidiff`** over the chunks, with
the context that was noted down last. -/
def diffChunkContexts (root : DiffRoot) (contextLines : ℕ) :
    ℕ → List DiffChunk → Option DiffChunkContext → List DiffChunkContext
  | _, [], cc => cc.toList
  | i, c :: chunks, cc =>
    if ¬c.isChange then diffChunkContexts root contextLines (i + 1) chunks cc
    else
      let next := diffChunkContextGet root i c contextLines
      match cc with
      | none => diffChunkContexts root contextLines (i + 1) chunks (some next)
      | some cc =>
        if diffChunkContextsTouch cc next then
          diffChunkContexts root contextLines (i + 1) chunks (some (diffChunkContextsMerge cc next))
        else cc :: diffChunkContexts root contextLines (i + 1) chunks (some next)

/-- **`diff_chunk_context_load_change`**, for the chunks from an index on: the first
change with what it touches, and how many chunks have been used. -/
def diffChunkContextLoadChange (root : DiffRoot) (contextLines : ℕ) :
    ℕ → List DiffChunk → Option DiffChunkContext → ℕ → Option DiffChunkContext × ℕ
  | _, [], cc, used => (cc, used)
  | i, c :: chunks, cc, used =>
    if ¬c.isChange then
      -- a change has been seen if there is a context
      match cc with
      | some cc => (some cc, used + 1)
      | none => diffChunkContextLoadChange root contextLines (i + 1) chunks none (used + 1)
    else
      let next := diffChunkContextGet root i c contextLines
      match cc with
      | none => diffChunkContextLoadChange root contextLines (i + 1) chunks (some next) (used + 1)
      | some cc =>
        if diffChunkContextsTouch cc next then
          diffChunkContextLoadChange root contextLines (i + 1) chunks
            (some (diffChunkContextsMerge cc next)) (used + 1)
        else (some cc, used)

/-! ## A stretch of chunks -/

variable {root : DiffRoot} {c : DiffChunk} {chunks hunk rest same : List DiffChunk}
  {ccs : List DiffChunkContext} {i n l r l' r' l'' r'' : ℕ}

/-- **Chunks in a row**, from an atom on either side up to another. -/
structure Stretch (root : DiffRoot) (l r : ℕ) (chunks : List DiffChunk) (l' r' : ℕ) : Prop where
  left : Covers l (chunks.map fun c => (c.leftStart, c.leftCount)) l'
  right : Covers r (chunks.map fun c => (c.rightStart, c.rightCount)) r'
  good : ∀ c ∈ chunks, c.Good root

theorem SoundScript.stretch (h : SoundScript root chunks l r) : Stretch root 0 0 chunks l r :=
  ⟨h.left, h.right, h.good⟩

theorem Stretch.nil_iff : Stretch root l r [] l' r' ↔ l = l' ∧ r = r' :=
  ⟨fun h => ⟨h.left, h.right⟩, fun h => ⟨h.1, h.2, fun _ hc => absurd hc List.not_mem_nil⟩⟩

/-- A list of chunks cut in two: the second part starts where the first one ends. -/
theorem Stretch.append_iff : Stretch root l r (chunks ++ rest) l'' r''
    ↔ ∃ l' r', Stretch root l r chunks l' r' ∧ Stretch root l' r' rest l'' r'' := by
  constructor
  · rintro ⟨hleft, hright, hgood⟩
    rw [List.map_append] at hleft hright
    obtain ⟨l', hleft, hleft'⟩ := Covers.append.mp hleft
    obtain ⟨r', hright, hright'⟩ := Covers.append.mp hright
    exact ⟨l', r', ⟨hleft, hright, fun c hc => hgood c (List.mem_append_left _ hc)⟩,
      hleft', hright', fun c hc => hgood c (List.mem_append_right _ hc)⟩
  · rintro ⟨l', r', h, h'⟩
    refine ⟨?_, ?_, fun c hc => (List.mem_append.mp hc).elim (h.good c) (h'.good c)⟩
    · rw [List.map_append]
      exact Covers.append.mpr ⟨l', h.left, h'.left⟩
    · rw [List.map_append]
      exact Covers.append.mpr ⟨r', h.right, h'.right⟩

/-- A list with a chunk in front: the chunk starts here, is right, and the rest starts at its end.
-/
theorem Stretch.cons_iff : Stretch root l r (c :: chunks) l' r'
    ↔ c.leftStart = l ∧ c.rightStart = r ∧ c.Good root
      ∧ Stretch root c.leftEnd c.rightEnd chunks l' r' := by
  constructor
  · rintro ⟨⟨hl, hleft⟩, ⟨hr, hright⟩, hgood⟩
    dsimp only at hl hr hleft hright
    refine ⟨hl, hr, hgood c List.mem_cons_self, ?_, ?_, fun c' hc' =>
      hgood c' (List.mem_cons_of_mem _ hc')⟩
    · rw [DiffChunk.leftEnd, hl]
      exact hleft
    · rw [DiffChunk.rightEnd, hr]
      exact hright
  · rintro ⟨rfl, rfl, hc, h⟩
    exact ⟨⟨rfl, h.left⟩, ⟨rfl, h.right⟩, List.forall_mem_cons.mpr ⟨hc, h.good⟩⟩

theorem Stretch.single (hc : c.Good root) :
    Stretch root c.leftStart c.rightStart [c] c.leftEnd c.rightEnd :=
  Stretch.cons_iff.mpr ⟨rfl, rfl, hc, Stretch.nil_iff.mpr ⟨rfl, rfl⟩⟩

/-- **A stretch is not backwards**, and if there is a chunk it is not empty on both sides. -/
theorem Stretch.le (h : Stretch root l r chunks l' r') :
    l ≤ l' ∧ r ≤ r' ∧ (chunks ≠ [] → l < l' ∨ r < r') := by
  induction chunks generalizing l r with
  | nil =>
    obtain ⟨rfl, rfl⟩ := Stretch.nil_iff.mp h
    exact ⟨le_rfl, le_rfl, fun h => absurd rfl h⟩
  | cons c chunks ih =>
    obtain ⟨rfl, rfl, hc, h⟩ := Stretch.cons_iff.mp h
    obtain ⟨hl, hr, -⟩ := ih h
    have hne := hc.nonempty
    rw [DiffChunk.leftEnd] at hl
    rw [DiffChunk.rightEnd] at hr
    omega

theorem DiffChunk.Good.isChange_iff (h : c.Good root) :
    c.isChange = true ↔ c.leftCount = 0 ∨ c.rightCount = 0 := by
  rw [DiffChunk.isChange, decide_eq_true_iff, h.type_eq_minus_iff, h.type_eq_plus_iff, or_comm]

/-- Where a stretch ends. -/
theorem Stretch.unique {l₁ r₁ : ℕ} (h : Stretch root l r chunks l' r')
    (h' : Stretch root l r chunks l₁ r₁) : l' = l₁ ∧ r' = r₁ := by
  induction chunks generalizing l r with
  | nil =>
    obtain ⟨rfl, rfl⟩ := Stretch.nil_iff.mp h
    exact Stretch.nil_iff.mp h'
  | cons c chunks ih =>
    exact ih (Stretch.cons_iff.mp h).2.2.2 (Stretch.cons_iff.mp h').2.2.2

/-- A chunk that is the same on both sides has as many atoms on the left as on the right. -/
theorem DiffChunk.Good.same_of_not_isChange (h : c.Good root) (hc : c.isChange = false) :
    c.leftCount ≠ 0 ∧ c.leftCount = c.rightCount
      ∧ ∀ i < c.leftCount, root.same (c.leftStart + i) (c.rightStart + i) = true := by
  have hnot := not_or.mp fun hor => Bool.eq_false_iff.mp hc (h.isChange_iff.mpr hor)
  exact ⟨hnot.1, h.same hnot.1 hnot.2⟩

/-! ## Hunks -/

/-- **The context of a stretch.** -/
def stretchContext (root : DiffRoot) (n i len l r l' r' : ℕ) : DiffChunkContext where
  chunk := ⟨i, i + len⟩
  left := ⟨l - n, min root.left.length (l' + n)⟩
  right := ⟨r - n, min root.right.length (r' + n)⟩

/-- **A stretch that has a change at either end.** Without lines of context there are only
changes in it. -/
structure IsHunk (root : DiffRoot) (n l r : ℕ) (hunk : List DiffChunk) (l' r' : ℕ) : Prop where
  stretch : Stretch root l r hunk l' r'
  first : ∃ c ∈ hunk.head?, c.isChange
  last : ∃ c ∈ hunk.getLast?, c.isChange
  changes : n = 0 → ∀ c ∈ hunk, c.isChange

/-- **What the contexts of chunks are**, from an index and atoms on. Chunks that are the
same on both sides are passed over, or they are within a hunk. -/
inductive Hunks (root : DiffRoot) (n : ℕ) :
    ℕ → ℕ → ℕ → List DiffChunk → List DiffChunkContext → Prop
  | nil (i l r : ℕ) : Hunks root n i l r [] []
  | same {i l r : ℕ} {c : DiffChunk} {chunks : List DiffChunk} {ccs : List DiffChunkContext}
      (hc : c.isChange = false)
      (h : Hunks root n (i + 1) c.leftEnd c.rightEnd chunks ccs) :
      Hunks root n i l r (c :: chunks) ccs
  | hunk {i l r l' r' : ℕ} {hunk rest : List DiffChunk} {ccs : List DiffChunkContext}
      (hhunk : IsHunk root n l r hunk l' r')
      (hapart : ∀ cc ∈ ccs.head?, min root.left.length (l' + n) < cc.left.start
        ∧ min root.right.length (r' + n) < cc.right.start)
      (h : Hunks root n (i + hunk.length) l' r' rest ccs) :
      Hunks root n i l r (hunk ++ rest) (stretchContext root n i hunk.length l r l' r' :: ccs)

/-- A change is a hunk. -/
theorem IsHunk.single (hc : c.Good root) (hchange : c.isChange) :
    IsHunk root n c.leftStart c.rightStart [c] c.leftEnd c.rightEnd :=
  ⟨Stretch.single hc, ⟨c, rfl, hchange⟩, ⟨c, rfl, hchange⟩,
    fun _ _ hc' => List.mem_singleton.mp hc' ▸ hchange⟩

/-- **A hunk goes on** with another change. -/
theorem IsHunk.append (h : IsHunk root n l r hunk l' r')
    (hsame : Stretch root l' r' same c.leftStart c.rightStart) (hc : c.Good root)
    (hchange : c.isChange) (hzero : n = 0 → same = []) :
    IsHunk root n l r (hunk ++ (same ++ [c])) c.leftEnd c.rightEnd := by
  obtain ⟨hstretch, ⟨c', hc', hfirst⟩, -, hchanges⟩ := h
  refine ⟨Stretch.append_iff.mpr ⟨_, _, hstretch,
    Stretch.append_iff.mpr ⟨_, _, hsame, Stretch.single hc⟩⟩,
    ⟨c', List.mem_head?_append_of_mem_head? hc', hfirst⟩, ⟨c, ?_, hchange⟩, fun hn c'' hc'' => ?_⟩
  · rw [← List.append_assoc, List.getLast?_concat]
    rfl
  · rw [hzero hn, List.nil_append] at hc''
    rcases List.mem_append.mp hc'' with hc'' | hc''
    · exact hchanges hn c'' hc''
    · exact List.mem_singleton.mp hc'' ▸ hchange

/-- A context is that of a stretch of one chunk. -/
theorem diffChunkContextGet_eq (i n : ℕ) (c : DiffChunk) : diffChunkContextGet root i c n
    = stretchContext root n i 1 c.leftStart c.rightStart c.leftEnd c.rightEnd := rfl

/-- **Contexts that touch are put together**, and what is between them comes along. -/
theorem stretchContext_merge {m k l₁ r₁ l₂ r₂ l₃ r₃ : ℕ} (hl : l ≤ l₁ ∧ l₁ ≤ l₂ ∧ l₂ ≤ l₃)
    (hr : r ≤ r₁ ∧ r₁ ≤ r₂ ∧ r₂ ≤ r₃) :
    diffChunkContextsMerge (stretchContext root n i m l r l₁ r₁)
        (stretchContext root n (i + m + k) 1 l₂ r₂ l₃ r₃)
      = stretchContext root n i (m + k + 1) l r l₃ r₃ := by
  simp only [diffChunkContextsMerge, stretchContext, diffRangesMerge, DiffChunkContext.mk.injEq,
    DiffRange.mk.injEq]
  omega

/-- Contexts that do not touch are apart. -/
theorem stretchContext_apart {m k l₁ r₁ l₂ r₂ l₃ r₃ : ℕ} (hl : l ≤ l₁ ∧ l₁ ≤ l₂ ∧ l₂ ≤ l₃)
    (hr : r ≤ r₁ ∧ r₁ ≤ r₂ ∧ r₂ ≤ r₃) (hlen : l₃ ≤ root.left.length)
    (hlen' : r₃ ≤ root.right.length)
    (h : ¬diffChunkContextsTouch (stretchContext root n i m l r l₁ r₁)
      (stretchContext root n (i + m + k) 1 l₂ r₂ l₃ r₃)) :
    min root.left.length (l₁ + n) < l₂ - n ∧ min root.right.length (r₁ + n) < r₂ - n ∧ k ≠ 0 := by
  simp only [diffChunkContextsTouch, stretchContext, diffRangesTouch, not_or, not_and, not_le] at h
  omega

/-- Without lines of context nothing is between contexts that touch. -/
theorem stretchContext_touch {m k l₁ r₁ l₂ r₂ l₃ r₃ : ℕ} (hl : l₁ ≤ l₂) (hr : r₁ ≤ r₂)
    (h : diffChunkContextsTouch (stretchContext root 0 i m l r l₁ r₁)
      (stretchContext root 0 (i + m + k) 1 l₂ r₂ l₃ r₃)) : k = 0 ∨ l₁ = l₂ ∨ r₁ = r₂ := by
  simp only [diffChunkContextsTouch, stretchContext, diffRangesTouch] at h
  omega

/-- Chunks that are the same on both sides have atoms on both. -/
theorem Stretch.lt_of_same (h : Stretch root l r same l' r') (hne : same ≠ [])
    (hsame : ∀ c ∈ same, c.isChange = false) : l < l' ∧ r < r' := by
  cases same with
  | nil => exact absurd rfl hne
  | cons c same =>
    obtain ⟨rfl, rfl, hc, h⟩ := Stretch.cons_iff.mp h
    obtain ⟨hpos, hcount, -⟩ := hc.same_of_not_isChange (hsame c List.mem_cons_self)
    have hle := h.le
    rw [DiffChunk.leftEnd, DiffChunk.rightEnd] at hle
    omega

/-- Chunks that are the same on both sides are passed over. -/
theorem Hunks.sames (hsame : ∀ c ∈ same, c.isChange = false)
    (hstretch : Stretch root l r same l' r')
    (h : Hunks root n (i + same.length) l' r' rest ccs) :
    Hunks root n i l r (same ++ rest) ccs := by
  induction same generalizing i l r with
  | nil =>
    obtain ⟨rfl, rfl⟩ := Stretch.nil_iff.mp hstretch
    exact h
  | cons c same ih =>
    obtain ⟨-, -, -, hstretch⟩ := Stretch.cons_iff.mp hstretch
    rw [List.length_cons, Nat.add_comm same.length, ← Nat.add_assoc] at h
    exact Hunks.same (hsame c List.mem_cons_self)
      (ih (fun c' hc' => hsame c' (List.mem_cons_of_mem _ hc')) hstretch h)

/-- The loop goes on with what was noted down last. -/
theorem diffChunkContexts_some {l₁ r₁ l₂ r₂ : ℕ} (hhunk : IsHunk root n l r hunk l₁ r₁)
    (hsame : Stretch root l₁ r₁ same l₂ r₂) (hsames : ∀ c ∈ same, c.isChange = false)
    (h : Stretch root l₂ r₂ chunks root.left.length root.right.length) :
    let ccs := diffChunkContexts root n (i + hunk.length + same.length) chunks
      (some (stretchContext root n i hunk.length l r l₁ r₁))
    Hunks root n i l r (hunk ++ (same ++ chunks)) ccs
      ∧ ∃ cc ∈ ccs.head?, cc.left.start = l - n ∧ cc.right.start = r - n := by
  dsimp only
  induction chunks generalizing hunk same i l r l₁ r₁ l₂ r₂ with
  | nil =>
    refine ⟨Hunks.hunk hhunk (fun cc hcc => nomatch hcc) ?_, _, rfl, rfl, rfl⟩
    exact Hunks.sames hsames hsame (Hunks.nil _ _ _)
  | cons c chunks ih =>
    obtain ⟨rfl, rfl, hc, hrest⟩ := Stretch.cons_iff.mp h
    have hle := hhunk.stretch.le
    have hle1 := hsame.le
    have hle2 := (Stretch.single hc).le
    have hle3 := hrest.le
    rw [diffChunkContexts]
    by_cases hchange : c.isChange = true
    · rw [if_neg (not_not.mpr hchange), diffChunkContextGet_eq]
      dsimp only
      split
      · next htouch =>
        -- what is between the two comes along
        rw [stretchContext_merge ⟨hle.1, hle1.1, hle2.1⟩ ⟨hle.2.1, hle1.2.1, hle2.2.1⟩]
        have hzero : n = 0 → same = [] := by
          rintro rfl
          by_contra hne
          have hlt := hsame.lt_of_same hne hsames
          have hpos := List.length_pos_iff.mpr hne
          have := stretchContext_touch hle1.1 hle1.2.1 htouch
          omega
        have ih := @ih (hunk ++ (same ++ [c])) [] i l r c.leftEnd c.rightEnd c.leftEnd c.rightEnd
          (hhunk.append hsame hc hchange hzero) (Stretch.nil_iff.mpr ⟨rfl, rfl⟩)
          (fun _ h => absurd h List.not_mem_nil) hrest
        simp only [List.length_append, List.length_singleton, List.length_nil, Nat.add_zero,
          List.nil_append, List.append_assoc, ← Nat.add_assoc, List.singleton_append] at ih ⊢
        exact ih
      · next htouch =>
        obtain ⟨hapart, hapart', -⟩ := stretchContext_apart ⟨hle.1, hle1.1, hle2.1⟩
          ⟨hle.2.1, hle1.2.1, hle2.2.1⟩ hle3.1 hle3.2.1 htouch
        obtain ⟨hnext, cc, hcc, hstart, hstart'⟩ := @ih [c] [] (i + hunk.length + same.length)
          c.leftStart c.rightStart c.leftEnd c.rightEnd c.leftEnd c.rightEnd
          (IsHunk.single hc hchange) (Stretch.nil_iff.mpr ⟨rfl, rfl⟩)
          (fun _ h => absurd h List.not_mem_nil) hrest
        refine ⟨Hunks.hunk hhunk (fun cc' hcc' => ?_) (Hunks.sames hsames hsame hnext), _, rfl, rfl,
          rfl⟩
        rw [List.length_singleton, List.length_nil, Nat.add_zero] at hcc
        obtain rfl := Option.mem_unique hcc hcc'
        rw [hstart, hstart']
        exact ⟨hapart, hapart'⟩
    · rw [if_pos hchange]
      have hchange := Bool.eq_false_iff.mpr hchange
      have ih := @ih hunk (same ++ [c]) i l r l₁ r₁ c.leftEnd c.rightEnd hhunk
        (Stretch.append_iff.mpr ⟨_, _, hsame, Stretch.single hc⟩)
        (fun c' hc' => (List.mem_append.mp hc').elim (hsames c')
          fun hc' => List.mem_singleton.mp hc' ▸ hchange) hrest
      simp only [List.length_append, List.length_singleton, List.append_assoc, ← Nat.add_assoc,
        List.singleton_append] at ih ⊢
      exact ih

/-- **Every change is in one of the contexts.** -/
theorem diffChunkContexts_hunks
    (h : Stretch root l r chunks root.left.length root.right.length) :
    Hunks root n i l r chunks (diffChunkContexts root n i chunks none) := by
  induction chunks generalizing i l r with
  | nil => exact Hunks.nil _ _ _
  | cons c chunks ih =>
    obtain ⟨rfl, rfl, hc, hrest⟩ := Stretch.cons_iff.mp h
    rw [diffChunkContexts]
    by_cases hchange : c.isChange = true
    · rw [if_neg (not_not.mpr hchange), diffChunkContextGet_eq]
      exact (@diffChunkContexts_some root chunks [c] [] i n c.leftStart c.rightStart c.leftEnd
        c.rightEnd c.leftEnd c.rightEnd (IsHunk.single hc hchange) (Stretch.nil_iff.mpr ⟨rfl, rfl⟩)
        (fun _ h => absurd h List.not_mem_nil) hrest).1
    · rw [if_pos hchange]
      exact Hunks.same (Bool.eq_false_iff.mpr hchange) (ih hrest)

/-! ## Where the contexts are -/

/-- What a context is that of. -/
theorem Hunks.mem (h : Hunks root n i l r chunks ccs) {l₂ r₂ : ℕ}
    (hs : Stretch root l r chunks l₂ r₂)
    {cc : DiffChunkContext} (hcc : cc ∈ ccs) :
    ∃ i l₁ r₁ hunk l' r', IsHunk root n l₁ r₁ hunk l' r' ∧ l ≤ l₁ ∧ r ≤ r₁ ∧ l' ≤ l₂ ∧ r' ≤ r₂
      ∧ cc = stretchContext root n i hunk.length l₁ r₁ l' r' := by
  induction h with
  | nil => exact absurd hcc List.not_mem_nil
  | same hc h ih =>
    obtain ⟨rfl, rfl, -, hs⟩ := Stretch.cons_iff.mp hs
    obtain ⟨i, l₁, r₁, hunk, l', r', hhunk, hl, hr, hrest⟩ := ih hs hcc
    exact ⟨i, l₁, r₁, hunk, l', r', hhunk, (Nat.le_add_right _ _).trans hl,
      (Nat.le_add_right _ _).trans hr, hrest⟩
  | hunk hhunk hapart h ih =>
    obtain ⟨l', r', hs', hs⟩ := Stretch.append_iff.mp hs
    obtain ⟨rfl, rfl⟩ := hs'.unique hhunk.stretch
    rcases List.mem_cons.mp hcc with rfl | hcc
    · exact ⟨_, _, _, _, _, _, hhunk, le_rfl, le_rfl, hs.le.1, hs.le.2.1, rfl⟩
    · obtain ⟨i, l₁, r₁, hunk, l', r', hhunk', hl, hr, hrest⟩ := ih hs hcc
      exact ⟨i, l₁, r₁, hunk, l', r', hhunk', hhunk.stretch.le.1.trans hl,
        hhunk.stretch.le.2.1.trans hr, hrest⟩

/-- Behind a hunk there is no change. -/
theorem Hunks.head_same (h : Hunks root n i l r chunks ccs)
    (hapart : ∀ cc ∈ ccs.head?, min root.left.length (l + n) < cc.left.start
      ∧ min root.right.length (r + n) < cc.right.start) (hl : l ≤ root.left.length) :
    ∀ c ∈ chunks.head?, c.isChange = false := by
  cases h with
  | nil => exact fun c hc => nomatch hc
  | same hc h =>
    intro c' hc'
    obtain rfl := Option.some.inj hc'
    exact hc
  | hunk hhunk hapart' h =>
    have hlt := (hapart _ rfl).1
    rw [stretchContext] at hlt
    dsimp only at hlt
    omega

/-! ## What is the same on both sides -/

/-- The atoms on the left. -/
def DiffRoot.leftLines (root : DiffRoot) : List Bytes := root.left.map DiffAtom.data

/-- The atoms on the right. -/
def DiffRoot.rightLines (root : DiffRoot) : List Bytes := root.right.map DiffAtom.data

@[simp] theorem DiffRoot.length_leftLines : root.leftLines.length = root.left.length :=
  List.length_map _

@[simp] theorem DiffRoot.length_rightLines : root.rightLines.length = root.right.length :=
  List.length_map _

/-- Atoms that are the same have the same bytes. -/
theorem DiffRoot.same_lines (hws : root.ignoreWhitespace = false) (h : root.same l r = true) :
    root.leftLines[l]? = root.rightLines[r]? := by
  rw [leftLines, rightLines, List.getElem?_map, List.getElem?_map]
  unfold same at h
  split at h
  · next left right hl hr =>
    rw [hws] at h
    have hcmp := (of_decide_eq_true h).2
    rw [hl, hr, Option.map_some, Option.map_some]
    exact congrArg some ((diffAtomCmp_eq_iff false left right).mp hcmp)
  · nomatch h

/-- **A chunk that is the same on both sides** has the same lines. -/
theorem DiffChunk.Good.same_lines (h : c.Good root) (hc : c.isChange = false)
    (hws : root.ignoreWhitespace = false) :
    (root.leftLines.drop c.leftStart).take c.leftCount
      = (root.rightLines.drop c.rightStart).take c.rightCount := by
  obtain ⟨-, hcount, hsame⟩ := h.same_of_not_isChange hc
  rw [← hcount]
  refine List.ext_getElem? fun i => ?_
  by_cases hi : i < c.leftCount
  · rw [List.getElem?_take_of_lt hi, List.getElem?_take_of_lt hi, List.getElem?_drop,
      List.getElem?_drop, DiffRoot.same_lines hws (hsame i hi)]
  · rw [List.getElem?_take_eq_none (not_lt.mp hi), List.getElem?_take_eq_none (not_lt.mp hi)]

/-! ## The next change -/

/-- **What comes first**: no change at all, or a hunk behind chunks that are the same on both
sides. -/
theorem Hunks.next (h : Hunks root n i l r chunks ccs) (hs : Stretch root l r chunks l' r')
    (hl : l' ≤ root.left.length) :
    (ccs = [] ∧ ∀ c ∈ chunks, c.isChange = false)
      ∨ ∃ same hunk rest ccs' l₁ r₁ l₂ r₂, chunks = same ++ (hunk ++ rest)
        ∧ Stretch root l r same l₁ r₁ ∧ (∀ c ∈ same, c.isChange = false)
        ∧ IsHunk root n l₁ r₁ hunk l₂ r₂ ∧ Stretch root l₂ r₂ rest l' r'
        ∧ (∀ c ∈ rest.head?, c.isChange = false)
        ∧ ccs = stretchContext root n (i + same.length) hunk.length l₁ r₁ l₂ r₂ :: ccs'
        ∧ Hunks root n (i + same.length + hunk.length) l₂ r₂ rest ccs' := by
  induction h with
  | nil => exact Or.inl ⟨rfl, fun c hc => absurd hc List.not_mem_nil⟩
  | @same i l r c chunks ccs hc h ih =>
    obtain ⟨rfl, rfl, hgood, hs⟩ := Stretch.cons_iff.mp hs
    rcases ih hs with ⟨hccs, hall⟩ | ⟨same, hunk, rest, ccs', l₁, r₁, l₂, r₂, rfl, hsame, hsames,
      hhunk, hrest, hhead, rfl, hnext⟩
    · exact Or.inl ⟨hccs, List.forall_mem_cons.mpr ⟨hc, hall⟩⟩
    · have hlen : i + (c :: same).length = i + 1 + same.length := by
        rw [List.length_cons, Nat.add_assoc, Nat.add_comm 1]
      exact Or.inr ⟨c :: same, hunk, rest, ccs', l₁, r₁, l₂, r₂, rfl,
        Stretch.cons_iff.mpr ⟨rfl, rfl, hgood, hsame⟩, List.forall_mem_cons.mpr ⟨hc, hsames⟩, hhunk,
        hrest, hhead, by rw [hlen], by rw [hlen]; exact hnext⟩
  | @hunk i l r l₂ r₂ hunk rest ccs hhunk hapart h ih =>
    obtain ⟨l₁, r₁, hs', hs⟩ := Stretch.append_iff.mp hs
    obtain ⟨rfl, rfl⟩ := hs'.unique hhunk.stretch
    exact Or.inr ⟨[], hunk, rest, ccs, l, r, l₁, r₁, rfl, Stretch.nil_iff.mpr ⟨rfl, rfl⟩,
      fun c hc => absurd hc List.not_mem_nil, hhunk, hs, h.head_same hapart (hs.le.1.trans hl), rfl,
      h⟩

/-- Chunks that are the same on both sides are used up on the way. -/
theorem loadChange_sames (n : ℕ) (hsame : ∀ c ∈ same, c.isChange = false) (i used : ℕ)
    (rest : List DiffChunk) : diffChunkContextLoadChange root n i (same ++ rest) none used
      = diffChunkContextLoadChange root n (i + same.length) rest none (used + same.length) := by
  induction same generalizing i used with
  | nil => rfl
  | cons c same ih =>
    rw [List.cons_append, diffChunkContextLoadChange,
      if_pos (by rw [hsame c List.mem_cons_self]; decide)]
    rw [ih fun c' hc' => hsame c' (List.mem_cons_of_mem _ hc'), List.length_cons]
    congr 1 <;> omega

/-- **The next change is loaded**, up to a chunk that is the same on both sides. That is used
up too. -/
theorem loadChange_some {m l₁ r₁ : ℕ} (hmn : 0 < m) (hl : l ≤ l₁) (hr : r ≤ r₁)
    (hhunk : Stretch root l₁ r₁ hunk l' r') (hchanges : ∀ c ∈ hunk, c.isChange)
    (hrest : ∀ c ∈ rest.head?, c.isChange = false) (used : ℕ) :
    diffChunkContextLoadChange root n (i + m) (hunk ++ rest)
        (some (stretchContext root n i m l r l₁ r₁)) used
      = (some (stretchContext root n i (m + hunk.length) l r l' r'),
        used + hunk.length + if rest = [] then 0 else 1) := by
  induction hunk generalizing m l₁ r₁ used with
  | nil =>
    obtain ⟨rfl, rfl⟩ := Stretch.nil_iff.mp hhunk
    cases rest with
    | nil => rfl
    | cons c rest =>
      rw [List.nil_append, diffChunkContextLoadChange, if_pos (by rw [hrest c rfl]; decide),
        if_neg (List.cons_ne_nil _ _)]
      rfl
  | cons c hunk ih =>
    obtain ⟨rfl, rfl, hc, hhunk⟩ := Stretch.cons_iff.mp hhunk
    have hle := (Stretch.single hc).le
    have htouch : diffChunkContextsTouch (stretchContext root n i m l r c.leftStart c.rightStart)
        (diffChunkContextGet root (i + m) c n) :=
      Or.inl ⟨le_rfl, show i ≤ i + m + 1 by omega⟩
    have hmerge := @stretchContext_merge root i n l r m 0 c.leftStart c.rightStart c.leftStart
      c.rightStart c.leftEnd c.rightEnd ⟨hl, le_rfl, hle.1⟩ ⟨hr, le_rfl, hle.2.1⟩
    rw [List.cons_append, diffChunkContextLoadChange,
      if_neg (not_not.mpr (hchanges c List.mem_cons_self))]
    dsimp only
    rw [if_pos htouch, diffChunkContextGet_eq]
    rw [Nat.add_zero] at hmerge
    rw [hmerge, Nat.add_assoc i m 1, ih (Nat.succ_pos m) (hl.trans hle.1) (hr.trans hle.2.1) hhunk
      fun c' hc' => hchanges c' (List.mem_cons_of_mem _ hc'), List.length_cons, Nat.add_zero]
    rw [Nat.add_assoc m 1, Nat.add_comm 1 hunk.length, Nat.add_assoc used 1,
      Nat.add_comm 1 hunk.length]

/-- **The next change is loaded** with so many lines of context, and the chunks up to it and
behind it are used up. -/
theorem loadChange_eq {l₁ r₁ l₂ r₂ : ℕ} (hsame : ∀ c ∈ same, c.isChange = false)
    (hhunk : IsHunk root 0 l₁ r₁ hunk l₂ r₂) (hrest : ∀ c ∈ rest.head?, c.isChange = false) :
    diffChunkContextLoadChange root n i (same ++ (hunk ++ rest)) none 0
      = (some (stretchContext root n (i + same.length) hunk.length l₁ r₁ l₂ r₂),
        same.length + hunk.length + if rest = [] then 0 else 1) := by
  have hchanges := hhunk.changes rfl
  obtain ⟨c, hc, -⟩ := hhunk.first
  cases hunk with
  | nil => nomatch hc
  | cons c hunk =>
    obtain ⟨rfl, rfl, hgood, hstretch⟩ := Stretch.cons_iff.mp hhunk.stretch
    rw [loadChange_sames n hsame, List.cons_append, diffChunkContextLoadChange,
      if_neg (not_not.mpr (hchanges c List.mem_cons_self))]
    dsimp only
    have hle := (Stretch.single hgood).le
    rw [diffChunkContextGet_eq, loadChange_some Nat.one_pos hle.1 hle.2.1 hstretch
      (fun c' hc' => hchanges c' (List.mem_cons_of_mem _ hc')) hrest, List.length_cons]
    rw [Nat.add_comm 1 hunk.length, Nat.zero_add, Nat.add_assoc same.length 1, Nat.add_comm 1]

/-- Without a change, nothing is loaded and everything is used up. -/
theorem loadChange_none (n : ℕ) (hsame : ∀ c ∈ same, c.isChange = false) (i : ℕ) :
    diffChunkContextLoadChange root n i same none 0 = (none, same.length) := by
  have h := @loadChange_sames root same n hsame i 0 []
  rw [List.append_nil, Nat.zero_add] at h
  exact h

end Got

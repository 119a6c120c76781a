import Got.CString

/-!
# Chunks of a diff

A file is cut into atoms, which are its lines, and a diff of two files is a list
of chunks, each of which covers a range of atoms on either side. In a chunk with
atoms on both sides these are the same, one by one.

Chunks are made from left to right, by algorithms that put a chunk behind those
that were made before. A chunk can be left unsolved, for another algorithm; then
what comes behind it has to wait. `Upto` is how far the chunks have got, and the
rest of the module is that adding a chunk goes on from there.
-/

namespace Got

/-! ## Atoms -/

/-- An atom: its bytes, and a hash of them. -/
structure DiffAtom where
  hash : UInt32
  data : Bytes
  deriving DecidableEq

/-- The loops of `buf_cmp` if white space is ignored. -/
def bufCmpIgnoreWhitespace : Bytes → Bytes → Ordering
  | cl :: left, cr :: right =>
    if isspace cl then bufCmpIgnoreWhitespace left (cr :: right)
    else if isspace cr then bufCmpIgnoreWhitespace (cl :: left) right
    else if cl > cr then .gt
    else if cr > cl then .lt
    else bufCmpIgnoreWhitespace left right
  | left, [] => if left.all isspace then .eq else .gt
  | [], right => if right.all isspace then .eq else .lt
termination_by left right => left.length + right.length

/-- `buf_cmp` -/
def bufCmp (left right : Bytes) (ignoreWhitespace : Bool) : Ordering :=
  if ignoreWhitespace then bufCmpIgnoreWhitespace left right
  else
    let len := min left.length right.length
    (memcmp (left.take len) (right.take len)).then (compare left.length right.length)

/-- `diff_atom_cmp`, for atoms in memory. -/
def diffAtomCmp (ignoreWhitespace : Bool) (left right : DiffAtom) : Ordering :=
  if left.data = [] ∧ right.data = [] then .eq
  else if ¬ignoreWhitespace ∧ right.data = [] then .gt
  else if ¬ignoreWhitespace ∧ left.data = [] then .lt
  else bufCmp left.data right.data ignoreWhitespace

/-- **`diff_atom_same`** -/
def diffAtomSame (ignoreWhitespace : Bool) (left right : DiffAtom) : Bool :=
  left.hash = right.hash ∧ diffAtomCmp ignoreWhitespace left right = .eq

/-- What of an atom is compared. -/
def DiffAtom.text (ignoreWhitespace : Bool) (atom : DiffAtom) : Bytes :=
  if ignoreWhitespace then atom.data.filter (fun c => !isspace c) else atom.data

/-- With whitespace ignored two buffers are equal when they are equal without it. -/
theorem bufCmpIgnoreWhitespace_eq_iff (left right : Bytes) :
    bufCmpIgnoreWhitespace left right = .eq
      ↔ left.filter (fun c => !isspace c) = right.filter (fun c => !isspace c) := by
  fun_induction bufCmpIgnoreWhitespace left right with
  | case1 cl left cr right hl ih => simpa [hl] using ih
  | case2 cl left cr right hl hr ih => simpa [hr] using ih
  | case3 cl left cr right hl hr hgt =>
    have hne : cl ≠ cr := fun heq => UInt8.lt_irrefl cr (heq ▸ hgt)
    simp [hl, hr, hne]
  | case4 cl left cr right hl hr hngt hgt =>
    have hne : cl ≠ cr := fun heq => UInt8.lt_irrefl cr (heq ▸ hgt)
    simp [hl, hr, hne]
  | case5 cl left cr right hl hr hngt hngt' ih =>
    have heq : cl = cr := UInt8.le_antisymm (UInt8.not_lt.mp hngt) (UInt8.not_lt.mp hngt')
    simpa [heq, hr] using ih
  | case6 left hall => simpa using hall
  | case7 left hall => simpa using hall
  | case8 right hne hall =>
    rw [List.filter_nil, eq_comm (a := [])]
    simpa using hall
  | case9 right hne hall =>
    rw [List.filter_nil, eq_comm (a := [])]
    simpa using hall

/-- With whitespace kept only equal buffers compare equal. -/
theorem bufCmp_eq_iff (left right : Bytes) : bufCmp left right false = .eq ↔ left = right := by
  show (memcmp _ _).then (compare left.length right.length) = .eq ↔ _
  rw [Ordering.then_eq_eq, Nat.compare_eq_eq]
  constructor
  · rintro ⟨hcmp, hlen⟩
    rw [hlen, min_self, ← hlen, List.take_length, hlen, List.take_length] at hcmp
    exact (memcmp_eq_iff hlen).mp hcmp
  · rintro rfl
    exact ⟨(memcmp_eq_iff rfl).mpr rfl, rfl⟩

/-- **Two atoms compare equal** exactly if what is compared of them is equal. -/
theorem diffAtomCmp_eq_iff (ignoreWhitespace : Bool) (left right : DiffAtom) :
    diffAtomCmp ignoreWhitespace left right = .eq
      ↔ left.text ignoreWhitespace = right.text ignoreWhitespace := by
  unfold diffAtomCmp DiffAtom.text
  cases ignoreWhitespace with
  | false =>
    have hcmp := bufCmp_eq_iff left.data right.data
    grind
  | true =>
    have hcmp := bufCmpIgnoreWhitespace_eq_iff left.data right.data
    grind [bufCmp]

/-- Atoms are the same whatever the order. -/
theorem diffAtomSame_comm (ignoreWhitespace : Bool) (left right : DiffAtom) :
    diffAtomSame ignoreWhitespace left right = diffAtomSame ignoreWhitespace right left := by
  unfold diffAtomSame
  refine decide_eq_decide.mpr ?_
  rw [diffAtomCmp_eq_iff, diffAtomCmp_eq_iff, eq_comm, @eq_comm _ (left.text _)]

/-! ## Chunks -/

/-- **The two files** as lists of atoms, which are known by their index. -/
structure DiffRoot where
  left : List DiffAtom
  right : List DiffAtom
  ignoreWhitespace : Bool

/-- Whether an atom on the left is the same as one on the right. -/
def DiffRoot.same (root : DiffRoot) (l r : ℕ) : Bool :=
  match root.left[l]?, root.right[r]? with
  | some left, some right => diffAtomSame root.ignoreWhitespace left right
  | _, _ => false

/-- **A chunk.** -/
structure DiffChunk where
  solved : Bool
  leftStart : ℕ
  leftCount : ℕ
  rightStart : ℕ
  rightCount : ℕ
  deriving DecidableEq

/-- What a chunk says: nothing, lines added, lines removed, lines in common, or that no kind fits.
-/
inductive DiffChunkType
  | empty
  | plus
  | minus
  | same
  | error
  deriving DecidableEq

namespace DiffChunk

/-- `diff_chunk_type` -/
def type (c : DiffChunk) : DiffChunkType :=
  if c.leftCount = 0 ∧ c.rightCount = 0 then .empty
  else if ¬c.solved then .error
  else if c.rightCount = 0 then .minus
  else if c.leftCount = 0 then .plus
  else if c.leftCount ≠ c.rightCount then .error
  else .same

/-- The end of a chunk on the left. -/
def leftEnd (c : DiffChunk) : ℕ := c.leftStart + c.leftCount

/-- The end of a chunk on the right. -/
def rightEnd (c : DiffChunk) : ℕ := c.rightStart + c.rightCount

/-- A chunk joined with one directly behind it. -/
def join (last c : DiffChunk) : DiffChunk :=
  { last with
    leftCount := last.leftCount + c.leftCount
    rightCount := last.rightCount + c.rightCount }

/-- **What a chunk has to be**: solved, not empty, and if there are atoms on both
sides, these are the same. -/
structure Good (root : DiffRoot) (c : DiffChunk) : Prop where
  solved : c.solved = true
  nonempty : c.leftCount ≠ 0 ∨ c.rightCount ≠ 0
  same : c.leftCount ≠ 0 → c.rightCount ≠ 0 → c.leftCount = c.rightCount
    ∧ ∀ i < c.leftCount, root.same (c.leftStart + i) (c.rightStart + i) = true

end DiffChunk

/-- **`diff_state_add_solved_chunk`**, where the last chunk is the head of the
list. Adjacent chunks of the same type are joined, and a chunk of atoms on the
left that would come behind one of atoms on the right is put before it. -/
def diffStateAddSolvedChunk (result : List DiffChunk) (chunk : DiffChunk) : List DiffChunk :=
  match result with
  | [] => [chunk]
  | last :: rest =>
    if chunk.type = last.type then last.join chunk :: rest
    else if last.type = .plus ∧ chunk.type = .minus then
      match rest with
      | prev :: rest' =>
        if prev.type = .minus then
          let new := prev.join chunk
          { last with leftStart := new.leftEnd } :: new :: rest'
        else
          let new := { chunk with rightStart := last.rightStart }
          { last with leftStart := new.leftEnd } :: new :: rest
      | [] =>
        let new := { chunk with rightStart := last.rightStart }
        [{ last with leftStart := new.leftEnd }, new]
    else chunk :: result

/-- **A part of a file**: the index of its first atom, and how many there are. -/
structure DiffData where
  start : ℕ
  len : ℕ
  deriving DecidableEq

/-- **The state of an algorithm.** What is solved comes first, the last chunk at
the head; then what waits for an unsolved chunk, in order. -/
structure DiffState where
  result : List DiffChunk
  tempResult : List DiffChunk
  left : DiffData
  right : DiffData
  recursionDepthLeft : ℕ

/-- **`diff_state_add_chunk`** -/
def diffStateAddChunk (state : DiffState) (chunk : DiffChunk) : DiffState :=
  if ¬chunk.solved ∨ state.tempResult ≠ [] then
    { state with tempResult := state.tempResult ++ [chunk] }
  else { state with result := diffStateAddSolvedChunk state.result chunk }

/-- A section of which nothing is known is left unsolved, if there are atoms on
both sides. -/
def diffStateAddSection (state : DiffState) (l leftLen r rightLen : ℕ) : DiffState :=
  if leftLen ≠ 0 ∧ rightLen ≠ 0 then diffStateAddChunk state ⟨false, l, leftLen, r, rightLen⟩
  else if leftLen ≠ 0 then diffStateAddChunk state ⟨true, l, leftLen, r, 0⟩
  else if rightLen ≠ 0 then diffStateAddChunk state ⟨true, l, 0, r, rightLen⟩
  else state

/-- What an algorithm returns. -/
inductive DiffRc
  | ok
  | useDiffAlgoFallback
  deriving DecidableEq

/-! ## How far the chunks have got -/

/-- **The chunks cover everything** up to an atom on either side. -/
def Upto (root : DiffRoot) : List DiffChunk → ℕ → ℕ → Prop
  | [], l, r => l = 0 ∧ r = 0
  | c :: result, l, r =>
    c.Good root ∧ l = c.leftEnd ∧ r = c.rightEnd ∧ Upto root result c.leftStart c.rightStart

/-- The chunks that wait cover everything from some atoms on. -/
def FromTo (root : DiffRoot) : ℕ → ℕ → List DiffChunk → ℕ → ℕ → Prop
  | l, r, [], l', r' => l = l' ∧ r = r'
  | l, r, c :: chunks, l', r' =>
    c.leftStart = l ∧ c.rightStart = r ∧ (c.solved → c.Good root)
      ∧ FromTo root c.leftEnd c.rightEnd chunks l' r'

/-- **How far an algorithm has got.** -/
def DiffState.At (root : DiffRoot) (state : DiffState) (l r : ℕ) : Prop :=
  ∃ l₀ r₀, Upto root state.result l₀ r₀ ∧ FromTo root l₀ r₀ state.tempResult l r

variable {root : DiffRoot} {c last : DiffChunk} {result chunks : List DiffChunk} {state : DiffState}
  {l r l' r' : ℕ}

namespace DiffChunk

theorem Good.type_eq_minus_iff (h : c.Good root) : c.type = .minus ↔ c.rightCount = 0 := by
  obtain ⟨hsolved, hne, -⟩ := h
  unfold type
  grind

theorem Good.type_eq_plus_iff (h : c.Good root) : c.type = .plus ↔ c.leftCount = 0 := by
  obtain ⟨hsolved, hne, -⟩ := h
  unfold type
  grind

/-- Two chunks of the same type, one directly behind the other, are one. -/
theorem Good.join (hlast : last.Good root) (hc : c.Good root) (htype : c.type = last.type)
    (hleft : c.leftStart = last.leftEnd) (hright : c.rightStart = last.rightEnd) :
    (last.join c).Good root := by
  have hminus := hlast.type_eq_minus_iff
  have hplus := hlast.type_eq_plus_iff
  rw [← htype, hc.type_eq_minus_iff] at hminus
  rw [← htype, hc.type_eq_plus_iff] at hplus
  have hne := hlast.nonempty
  refine ⟨hlast.solved, ?_, fun h1 h2 => ?_⟩
  · show last.leftCount + c.leftCount ≠ 0 ∨ last.rightCount + c.rightCount ≠ 0
    omega
  · replace h1 : last.leftCount + c.leftCount ≠ 0 := h1
    replace h2 : last.rightCount + c.rightCount ≠ 0 := h2
    obtain ⟨hcount, hsame⟩ := hlast.same (by omega) (by omega)
    obtain ⟨hcount', hsame'⟩ := hc.same (by omega) (by omega)
    refine ⟨congrArg₂ (· + ·) hcount hcount', fun i hi => ?_⟩
    show root.same (last.leftStart + i) (last.rightStart + i) = true
    replace hi : i < last.leftCount + c.leftCount := hi
    by_cases hlt : i < last.leftCount
    · exact hsame i hlt
    · have hsame' := hsame' (i - last.leftCount) (by omega)
      rw [hleft, hright, leftEnd, rightEnd] at hsame'
      have h1 : last.leftStart + last.leftCount + (i - last.leftCount)
        = last.leftStart + i := by omega
      have h2 : last.rightStart + last.rightCount + (i - last.leftCount) = last.rightStart + i := by
        omega
      rwa [h1, h2] at hsame'

/-- A chunk with atoms on one side only can be anywhere. -/
theorem Good.of_minus (h : c.Good root) (hc : c.rightCount = 0) (start : ℕ) :
    ({ c with rightStart := start } : DiffChunk).Good root :=
  ⟨h.solved, h.nonempty, fun _ hne => absurd hc hne⟩

theorem Good.of_plus (h : c.Good root) (hc : c.leftCount = 0) (start : ℕ) :
    ({ c with leftStart := start } : DiffChunk).Good root :=
  ⟨h.solved, h.nonempty, fun hne _ => absurd hc hne⟩

end DiffChunk

/-- A chunk of atoms on the right is behind what is new. -/
theorem Upto.cons_plus {new : DiffChunk} (h : Upto root (new :: result) new.leftEnd last.rightStart)
    (hlast : last.Good root) (hplus : last.leftCount = 0) :
    Upto root ({ last with leftStart := new.leftEnd } :: new :: result) new.leftEnd last.rightEnd :=
  ⟨hlast.of_plus hplus _, (congrArg (new.leftEnd + ·) hplus).symm, rfl, h⟩

/-- **A solved chunk is added** where the chunks had got to. -/
theorem Upto.add (h : Upto root result c.leftStart c.rightStart) (hc : c.Good root) :
    Upto root (diffStateAddSolvedChunk result c) c.leftEnd c.rightEnd := by
  unfold diffStateAddSolvedChunk
  cases result with
  | nil => exact ⟨hc, rfl, rfl, h⟩
  | cons last rest =>
    dsimp only
    obtain ⟨hlast, hleft, hright, hrest⟩ := id h
    split
    · next htype =>
      refine ⟨hlast.join hc htype hleft hright, ?_, ?_, hrest⟩
      · show c.leftStart + c.leftCount = last.leftStart + (last.leftCount + c.leftCount)
        rw [hleft, DiffChunk.leftEnd, Nat.add_assoc]
      · show c.rightStart + c.rightCount = last.rightStart + (last.rightCount + c.rightCount)
        rw [hright, DiffChunk.rightEnd, Nat.add_assoc]
    · split
      · next hswap =>
        have hplus := hlast.type_eq_plus_iff.mp hswap.1
        have hminus := hc.type_eq_minus_iff.mp hswap.2
        have hstart : c.leftStart = last.leftStart := by
          rw [hleft, DiffChunk.leftEnd, hplus, Nat.add_zero]
        have hnew : Upto root ({ c with rightStart := last.rightStart } :: rest) c.leftEnd
            last.rightStart := by
          refine ⟨hc.of_minus hminus _, rfl, (congrArg (last.rightStart + ·) hminus).symm, ?_⟩
          exact hstart ▸ hrest
        have hend : c.rightEnd = last.rightEnd := by
          rw [DiffChunk.rightEnd, hminus, Nat.add_zero, hright]
        rw [hend]
        split
        · next prev rest' =>
          obtain ⟨hprev, hl, hr, hrest'⟩ := hrest
          split
          · next htype =>
            have hprev' := hprev.type_eq_minus_iff.mp htype
            have hcount : (prev.join c).leftEnd = c.leftEnd := by
              show prev.leftStart + (prev.leftCount + c.leftCount) = c.leftStart + c.leftCount
              rw [hstart, hl, DiffChunk.leftEnd, Nat.add_assoc]
            have hzero : (prev.join c).rightCount = 0 := by
              show prev.rightCount + c.rightCount = 0
              rw [hprev', hminus]
            rw [← hcount]
            refine Upto.cons_plus ⟨⟨hprev.solved, ?_, fun _ hne => absurd hzero hne⟩, rfl, ?_,
              hrest'⟩
              hlast hplus
            · have hne := hprev.nonempty
              show prev.leftCount + c.leftCount ≠ 0 ∨ _
              omega
            · rw [hr, DiffChunk.rightEnd, DiffChunk.rightEnd, hzero, hprev']
              rfl
          · exact hnew.cons_plus hlast hplus
        · exact hnew.cons_plus hlast hplus
      · exact ⟨hc, rfl, rfl, h⟩

/-- A chunk that starts where the list ends extends it. -/
theorem FromTo.append (h : FromTo root l r chunks c.leftStart c.rightStart)
    (hc : c.solved → c.Good root) : FromTo root l r (chunks ++ [c]) c.leftEnd c.rightEnd := by
  induction chunks generalizing l r with
  | nil =>
    obtain ⟨rfl, rfl⟩ := h
    exact ⟨rfl, rfl, hc, rfl, rfl⟩
  | cons c' chunks ih =>
    obtain ⟨hl, hr, hc', h⟩ := h
    exact ⟨hl, hr, hc', ih h⟩

/-- **A chunk is added** where an algorithm has got to. -/
theorem DiffState.At.add (h : state.At root c.leftStart c.rightStart)
    (hc : c.solved → c.Good root) :
    (diffStateAddChunk state c).At root c.leftEnd c.rightEnd := by
  obtain ⟨l₀, r₀, hupto, hfrom⟩ := h
  unfold diffStateAddChunk
  split
  · exact ⟨l₀, r₀, hupto, hfrom.append hc⟩
  · next hsolved =>
    obtain ⟨hsolved, htemp⟩ : c.solved = true ∧ state.tempResult = [] := by simpa using hsolved
    rw [htemp] at hfrom
    obtain ⟨rfl, rfl⟩ := hfrom
    exact ⟨_, _, hupto.add (hc hsolved), by rw [htemp]; exact ⟨rfl, rfl⟩⟩

/-- Atoms on the left only. -/
theorem DiffState.At.addMinus (h : state.At root l r) {len : ℕ} (hlen : len ≠ 0) :
    (diffStateAddChunk state ⟨true, l, len, r, 0⟩).At root (l + len) r :=
  h.add (c := ⟨true, l, len, r, 0⟩) fun _ => ⟨rfl, Or.inl hlen, fun _ hne => absurd rfl hne⟩

/-- Atoms on the right only. -/
theorem DiffState.At.addPlus (h : state.At root l r) {len : ℕ} (hlen : len ≠ 0) :
    (diffStateAddChunk state ⟨true, l, 0, r, len⟩).At root l (r + len) :=
  h.add (c := ⟨true, l, 0, r, len⟩) fun _ => ⟨rfl, Or.inr hlen, fun hne => absurd rfl hne⟩

/-- Atoms that are the same. -/
theorem DiffState.At.addSame (h : state.At root l r) {len : ℕ} (hlen : len ≠ 0)
    (hsame : ∀ i < len, root.same (l + i) (r + i) = true) :
    (diffStateAddChunk state ⟨true, l, len, r, len⟩).At root (l + len) (r + len) :=
  h.add (c := ⟨true, l, len, r, len⟩) fun _ => ⟨rfl, Or.inl hlen, fun _ _ => ⟨rfl, hsame⟩⟩

/-- Any section. -/
theorem DiffState.At.addSection (h : state.At root l r) (leftLen rightLen : ℕ) :
    (diffStateAddSection state l leftLen r rightLen).At root (l + leftLen) (r + rightLen) := by
  unfold diffStateAddSection
  split
  · exact h.add (c := ⟨false, l, leftLen, r, rightLen⟩) fun hsolved => nomatch hsolved
  · split
    · next hboth hleft =>
      obtain rfl : rightLen = 0 := not_not.mp fun hne => hboth ⟨hleft, hne⟩
      exact h.addMinus hleft
    · next hleft =>
      obtain rfl : leftLen = 0 := not_not.mp hleft
      split
      · next hright => exact h.addPlus hright
      · next hright =>
        obtain rfl : rightLen = 0 := not_not.mp hright
        exact h

/-! ## What is left unsolved -/

/-- **Everything that is left unsolved** has fewer atoms than this, of both files together. -/
def DiffState.Leaves (state : DiffState) (count : ℕ) : Prop :=
  ∀ c ∈ state.tempResult, c.solved = false → c.leftCount + c.rightCount < count

/-- Adding a chunk keeps every unsolved chunk below the bound, if the chunk itself is. -/
theorem DiffState.Leaves.add {count : ℕ} (h : state.Leaves count)
    (hc : c.solved = false → c.leftCount + c.rightCount < count) :
    (diffStateAddChunk state c).Leaves count := by
  unfold diffStateAddChunk
  split
  · intro c' hc'
    rcases List.mem_append.mp hc' with hc' | hc'
    · exact h c' hc'
    · exact List.mem_singleton.mp hc' ▸ hc
  · exact h

theorem DiffState.Leaves.addSolved {count : ℕ} (h : state.Leaves count)
    (l leftCount r rightCount : ℕ) :
    (diffStateAddChunk state ⟨true, l, leftCount, r, rightCount⟩).Leaves count :=
  h.add fun hc => nomatch hc

/-- Adding a section keeps the bound: what is left unsolved of it is no longer than the section. -/
theorem DiffState.Leaves.addSection {count leftLen rightLen : ℕ} (h : state.Leaves count)
    (hlen : leftLen + rightLen < count) (l r : ℕ) :
    (diffStateAddSection state l leftLen r rightLen).Leaves count := by
  unfold diffStateAddSection
  split
  · exact h.add fun _ => hlen
  · split
    · exact h.addSolved l leftLen r 0
    · split
      · exact h.addSolved l 0 r rightLen
      · exact h

@[simp] theorem left_addChunk (state : DiffState) (c : DiffChunk) :
    (diffStateAddChunk state c).left = state.left := by
  unfold diffStateAddChunk
  split <;> rfl

@[simp] theorem right_addChunk (state : DiffState) (c : DiffChunk) :
    (diffStateAddChunk state c).right = state.right := by
  unfold diffStateAddChunk
  split <;> rfl

end Got

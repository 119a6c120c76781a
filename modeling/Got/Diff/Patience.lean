import Mathlib.Data.List.DropRight
import Mathlib.Data.List.GetD
import Mathlib.Data.List.Sort
import Got.Diff.Chunk

/-!
# Patience diff

Atoms that are in either file once are taken to be what the files have in common,
as far as they are in the same order. The longest sequence of them is found by
patience sort. What lies between them is left for another algorithm.

That an atom is in either file just once is found out by sorting the atoms of
both files. The sort only has to return the atoms it was given, for the diff to
be right: what is taken for the same has been compared.
-/

namespace Got

/-! ## Atoms that are unique in both files -/

/-- The two sides of a diff: which file an atom is from. -/
inductive DiffSide
  | left
  | right
  deriving DecidableEq

/-- **An atom and where it is**, relative to the part of the file at hand. -/
structure PlacedAtom where
  side : DiffSide
  idx : ℕ
  atom : DiffAtom

/-- The atoms of a part of a file. -/
def placedAtoms (side : DiffSide) (atoms : List DiffAtom) (data : DiffData) : List PlacedAtom :=
  ((atoms.drop data.start).take data.len).mapIdx (fun i atom => ⟨side, i, atom⟩)

/-- **What is known of the atoms**: for those that are unique in both files the
position in the other file. -/
abbrev AtomPatience := DiffSide → ℕ → Option PlacedAtom

/-- Two atoms are unique in both files. -/
def AtomPatience.pair (patience : AtomPatience) (a b : PlacedAtom) : AtomPatience := fun side i =>
  if side = b.side ∧ i = b.idx then some a
  else if side = a.side ∧ i = a.idx then some b
  else patience side i

/-- `diff_atoms_compar` -/
def diffAtomsCompar (ignoreWhitespace : Bool) (a b : PlacedAtom) : Ordering :=
  if a.atom.hash < b.atom.hash then .lt
  else if a.atom.hash > b.atom.hash then .gt
  else diffAtomCmp ignoreWhitespace a.atom b.atom

/-- **`diff_atoms_sort`** -/
def diffAtomsSort (ignoreWhitespace : Bool) (atoms : List PlacedAtom) : List PlacedAtom :=
  atoms.insertionSort (fun a b => diffAtomsCompar ignoreWhitespace a b ≠ .gt)

/-- The atoms behind `a` that are the same. One looks for the first atom with
another hash, and goes back from there up to one that is the same. -/
def sameRun (ignoreWhitespace : Bool) (a : PlacedAtom) (rest : List PlacedAtom) : List PlacedAtom :=
  (rest.takeWhile (fun b => a.atom.hash = b.atom.hash)).rdropWhile
    (fun b => ¬diffAtomSame ignoreWhitespace a.atom b.atom)

/-- The loop over the sorted atoms. There are at most `fuel` of them left. -/
def markUniqueLoop (ignoreWhitespace : Bool) :
    ℕ → List PlacedAtom → ℕ → AtomPatience → ℕ × AtomPatience
  | 0, _, count, patience => (count, patience)
  | _, [], count, patience => (count, patience)
  | fuel + 1, a :: rest, count, patience =>
    let run := sameRun ignoreWhitespace a rest
    let countFirstSide := 1 + run.countP (fun b => a.side = b.side)
    let countOtherSide := run.countP (fun b => a.side ≠ b.side)
    match rest.head? with
    | some b =>
      if countFirstSide = 1 ∧ countOtherSide = 1 then
        markUniqueLoop ignoreWhitespace fuel (rest.drop run.length) (count + 1) (patience.pair a b)
      else markUniqueLoop ignoreWhitespace fuel (rest.drop run.length) count patience
    | none => (count, patience)

/-- **`diff_atoms_mark_unique_in_both`** -/
def diffAtomsMarkUniqueInBoth (root : DiffRoot) (left right : DiffData) : ℕ × AtomPatience :=
  let all := placedAtoms .left root.left left ++ placedAtoms .right root.right right
  markUniqueLoop root.ignoreWhitespace all.length (diffAtomsSort root.ignoreWhitespace all) 0
    (fun _ _ => none)

/-! ## Patience sort -/

/-- An atom that is unique in both files. -/
structure UniqueAtom where
  idx : ℕ
  posInOther : ℕ

/-- The stacks of cards. Each begins with the card on its top, and goes on with
the cards one comes to by `prev_stack`. -/
abbrev PatienceStacks := List (List UniqueAtom)

/-- The position in the other file of the card on top of a stack. -/
def PatienceStacks.top (patienceStacks : PatienceStacks) (i : ℕ) : ℕ :=
  match patienceStacks[i]? with
  | some (atom :: _) => atom.posInOther
  | _ => 0

/-- The binary search for the first stack whose top is not less: `lo` and `hi` close in on it. -/
def findTargetStackLoop (patienceStacks : PatienceStacks) (posInOther : ℕ) : ℕ → ℕ → ℕ → ℕ
  | 0, lo, _ => lo
  | fuel + 1, lo, hi =>
    if lo < hi then
      let mid := (lo + hi) / 2
      if patienceStacks.top mid < posInOther
        then findTargetStackLoop patienceStacks posInOther fuel (mid + 1) hi
      else findTargetStackLoop patienceStacks posInOther fuel lo mid
    else lo

/-- **`find_target_stack`**: a binary search. -/
def findTargetStack (atom : UniqueAtom) (patienceStacks : PatienceStacks) : ℕ :=
  findTargetStackLoop patienceStacks atom.posInOther patienceStacks.length 0 patienceStacks.length

/-- A card is put on a stack, with a reference to the stack to its left. -/
def putOnStack (patienceStacks : PatienceStacks) (atom : UniqueAtom) : PatienceStacks :=
  let target := findTargetStack atom patienceStacks
  let prevStack := if target ≠ 0 then patienceStacks.getD (target - 1) [] else []
  if target = patienceStacks.length then patienceStacks ++ [atom :: prevStack]
  else patienceStacks.set target (atom :: prevStack)

/-- The atoms on the left that are unique in both files. -/
def uniqueAtoms (patience : AtomPatience) (leftLen : ℕ) : List UniqueAtom :=
  (List.range leftLen).filterMap (fun i => (patience .left i).map (fun b => ⟨i, b.idx⟩))

/-- **The longest sequence** of unique atoms in the same order on both sides. -/
def patienceLcs (uniques : List UniqueAtom) : List UniqueAtom :=
  ((uniques.foldl putOnStack []).getLastD []).reverse

/-! ## The algorithm -/

/-- The loop over the sequence. -/
def patienceSections (left right : DiffData) :
    ℕ → ℕ → List UniqueAtom → DiffState → DiffState
  | leftPos, rightPos, [], state =>
    diffStateAddSection state (left.start + leftPos) (left.len - leftPos)
      (right.start + rightPos) (right.len - rightPos)
  | leftPos, rightPos, atom :: lcs, state =>
    let state := diffStateAddSection state (left.start + leftPos) (atom.idx - leftPos)
      (right.start + rightPos) (atom.posInOther - rightPos)
    let state := diffStateAddChunk state
      ⟨true, left.start + atom.idx, 1, right.start + atom.posInOther, 1⟩
    patienceSections left right (atom.idx + 1) (atom.posInOther + 1) lcs state

/-- **`diff_algo_patience`** -/
def diffAlgoPatience (root : DiffRoot) (state : DiffState) : DiffRc × DiffState :=
  let (uniqueInBothCount, patience) := diffAtomsMarkUniqueInBoth root state.left state.right
  if uniqueInBothCount = 0 then (.useDiffAlgoFallback, state)
  else
    let lcs := patienceLcs (uniqueAtoms patience state.left.len)
    (.ok, patienceSections state.left state.right 0 0 lcs state)

/-! ## What is unique in both files is the same -/

variable {root : DiffRoot} {state : DiffState} {a b c : PlacedAtom} {atoms rest : List PlacedAtom}
  {patience : AtomPatience}

/-- **An atom is where it is said to be.** -/
def PlacedAtom.In (root : DiffRoot) (left right : DiffData) (a : PlacedAtom) : Prop :=
  match a.side with
  | .left => a.idx < left.len ∧ root.left[left.start + a.idx]? = some a.atom
  | .right => a.idx < right.len ∧ root.right[right.start + a.idx]? = some a.atom

/-- **What is unique in both files** is the same there. -/
def AtomPatience.Paired (root : DiffRoot) (left right : DiffData) (patience : AtomPatience) :
    Prop :=
  ∀ i b, patience .left i = some b → i < left.len ∧ b.idx < right.len
    ∧ root.same (left.start + i) (right.start + b.idx) = true

/-- Atoms are placed with their side, and where they are in their part of the file. -/
theorem in_of_mem_placedAtoms {side : DiffSide} {data : DiffData} {atoms : List DiffAtom}
    (h : a ∈ placedAtoms side atoms data) :
    a.side = side ∧ a.idx < data.len ∧ atoms[data.start + a.idx]? = some a.atom := by
  obtain ⟨i, hi, rfl⟩ := List.mem_mapIdx.mp h
  rw [List.length_take, List.length_drop] at hi
  refine ⟨rfl, by dsimp only; omega, ?_⟩
  rw [List.getElem_take, List.getElem_drop, List.getElem?_eq_getElem]

/-- Every atom of the two lists lies in the part of its file that is compared. -/
theorem in_of_mem_all {left right : DiffData}
    (h : a ∈ placedAtoms .left root.left left ++ placedAtoms .right root.right right) :
    a.In root left right := by
  unfold PlacedAtom.In
  rcases List.mem_append.mp h with h | h
  · obtain ⟨hside, hin⟩ := in_of_mem_placedAtoms h
    rw [hside]
    exact hin
  · obtain ⟨hside, hin⟩ := in_of_mem_placedAtoms h
    rw [hside]
    exact hin

/-- Two atoms on either side that are the same can be paired. -/
theorem AtomPatience.Paired.pair {left right : DiffData} (h : patience.Paired root left right)
    (ha : a.In root left right) (hb : b.In root left right) (hside : a.side ≠ b.side)
    (hsame : diffAtomSame root.ignoreWhitespace a.atom b.atom = true) :
    (patience.pair a b).Paired root left right := by
  intro i c hc
  unfold AtomPatience.pair at hc
  unfold PlacedAtom.In at ha hb
  split at hc
  · next heq =>
    obtain rfl := Option.some.inj hc
    obtain ⟨hleft, rfl⟩ := heq
    have hright : a.side = .right := by
      cases hs : a.side with
      | left => exact absurd (hs.trans hleft) hside
      | right => rfl
    rw [← hleft] at hb
    rw [hright] at ha
    refine ⟨hb.1, ha.1, ?_⟩
    rw [DiffRoot.same, hb.2, ha.2]
    exact (diffAtomSame_comm _ _ _).trans hsame
  · split at hc
    · next heq =>
      obtain rfl := Option.some.inj hc
      obtain ⟨hleft, rfl⟩ := heq
      have hright : b.side = .right := by
        cases hs : b.side with
        | left => exact absurd (hleft.symm.trans hs.symm) hside
        | right => rfl
      rw [← hleft] at ha
      rw [hright] at hb
      refine ⟨ha.1, hb.1, ?_⟩
      rw [DiffRoot.same, ha.2, hb.2]
      exact hsame
    · exact h i c hc

/-- There is one atom on the other side, and none on the first one. -/
theorem counts_iff {run : List PlacedAtom} {side : DiffSide} :
    1 + run.countP (fun b => side = b.side) = 1 ∧ run.countP (fun b => side ≠ b.side) = 1
      ↔ ∃ b, run = [b] ∧ side ≠ b.side := by
  constructor
  · intro hcounts
    have hlen : run.length = 1 := by
      rw [List.length_eq_countP_add_countP (fun b => decide (side = b.side))]
      simp only [decide_not, Bool.decide_eq_true] at hcounts ⊢
      omega
    obtain ⟨b, rfl⟩ := List.length_eq_one_iff.mp hlen
    refine ⟨b, rfl, fun hside => ?_⟩
    simp [hside] at hcounts
  · rintro ⟨b, rfl, hside⟩
    simp [hside]

/-- A run of one more atom is the next one, and the same. -/
theorem same_of_sameRun {ig : Bool} (h : sameRun ig a (b :: rest) = [c]) :
    c = b ∧ diffAtomSame ig a.atom c.atom = true := by
  have hprefix : [c] <+: b :: rest := by
    rw [← h]
    exact (List.rdropWhile_prefix _ _).trans (List.takeWhile_prefix _)
  refine ⟨(List.cons_prefix_cons.mp hprefix).1, ?_⟩
  have hne : sameRun ig a (b :: rest) ≠ [] := by
    rw [h]
    exact List.cons_ne_nil _ _
  have hlast : ¬decide ¬diffAtomSame ig a.atom ((sameRun ig a (b :: rest)).getLast hne).atom :=
    List.rdropWhile_last_not _ _ hne
  simpa [h] using hlast

/-- Whatever is paired is an atom of either side, each with an equal one of the other. -/
theorem markUniqueLoop_paired {left right : DiffData} {fuel count : ℕ}
    (hatoms : ∀ a ∈ atoms, a.In root left right) (h : patience.Paired root left right) :
    (markUniqueLoop root.ignoreWhitespace fuel atoms count patience).2.Paired root left right := by
  induction fuel generalizing atoms count patience with
  | zero => exact h
  | succ fuel ih =>
    cases atoms with
    | nil => exact h
    | cons a rest =>
      cases rest with
      | nil => exact h
      | cons b rest =>
        have hrest : ∀ c ∈ (b :: rest).drop (sameRun root.ignoreWhitespace a (b :: rest)).length,
            c.In root left right :=
          fun c hc => hatoms c (List.mem_cons_of_mem _ (List.mem_of_mem_drop hc))
        rw [markUniqueLoop]
        dsimp only [List.head?_cons]
        split
        · next hcounts =>
          refine ih hrest ?_
          obtain ⟨c, hrun, hside⟩ := counts_iff.mp hcounts
          obtain ⟨rfl, hsame⟩ := same_of_sameRun hrun
          exact h.pair (hatoms a List.mem_cons_self)
            (hatoms c (List.mem_cons_of_mem _ List.mem_cons_self)) hside hsame
        · exact ih hrest h

variable (root) in
theorem diffAtomsMarkUniqueInBoth_paired (left right : DiffData) :
    (diffAtomsMarkUniqueInBoth root left right).2.Paired root left right := by
  refine markUniqueLoop_paired (fun a ha => in_of_mem_all ?_) fun _ _ h => nomatch h
  exact (List.mem_insertionSort _).mp ha

/-! ## The sequence is in the same order on both sides -/

section Stacks

variable {patienceStacks : PatienceStacks} {atom : UniqueAtom} {uniques lcs : List UniqueAtom}
  {P : UniqueAtom → Prop}

/-- One atom is behind another, on both sides. -/
def UniqueAtom.Before (a b : UniqueAtom) : Prop := a.idx < b.idx ∧ a.posInOther < b.posInOther

/-- The binary search ends at the first stack whose top is at least the position looked for. -/
theorem findTargetStackLoop_spec {posInOther fuel lo hi : ℕ} (hle : lo ≤ hi)
    (hfuel : hi - lo ≤ fuel)
    (hlo : lo = 0 ∨ patienceStacks.top (lo - 1) < posInOther)
    (hhi : hi < patienceStacks.length → posInOther ≤ patienceStacks.top hi) :
    findTargetStackLoop patienceStacks posInOther fuel lo hi ≤ hi
      ∧ (findTargetStackLoop patienceStacks posInOther fuel lo hi = 0
        ∨ patienceStacks.top (findTargetStackLoop patienceStacks posInOther fuel lo hi - 1)
          < posInOther)
      ∧ (findTargetStackLoop patienceStacks posInOther fuel lo hi < patienceStacks.length →
        posInOther ≤ patienceStacks.top
          (findTargetStackLoop patienceStacks posInOther fuel lo hi)) := by
  induction fuel generalizing lo hi with
  | zero =>
    obtain rfl : lo = hi := by omega
    exact ⟨le_rfl, hlo, hhi⟩
  | succ fuel ih =>
    rw [findTargetStackLoop]
    dsimp only
    split
    · split
      · next htop => exact ih (by omega) (by omega) (Or.inr htop) hhi
      · next htop =>
        have hmid : lo ≤ (lo + hi) / 2 := by omega
        obtain ⟨hle', hstacks⟩ := ih hmid (by omega) hlo fun _ => not_lt.mp htop
        exact ⟨by omega, hstacks⟩
    · obtain rfl : lo = hi := by omega
      exact ⟨le_rfl, hlo, hhi⟩

/-- **The card to the left** is smaller, if there is one, and the card that is covered is not. -/
theorem findTargetStack_spec (atom : UniqueAtom) (patienceStacks : PatienceStacks) :
    findTargetStack atom patienceStacks ≤ patienceStacks.length
      ∧ (findTargetStack atom patienceStacks = 0
        ∨ patienceStacks.top (findTargetStack atom patienceStacks - 1) < atom.posInOther)
      ∧ (findTargetStack atom patienceStacks < patienceStacks.length →
        atom.posInOther ≤ patienceStacks.top (findTargetStack atom patienceStacks)) :=
  findTargetStackLoop_spec (Nat.zero_le _) (Nat.sub_le _ _) (Or.inl rfl)
    fun h => absurd h (lt_irrefl _)

/-- **A sequence of cards** that one comes to by going back: each is behind the
next one, on both sides. -/
def IsChain (P : UniqueAtom → Prop) (chain : List UniqueAtom) : Prop :=
  chain.Pairwise (fun a b => b.Before a) ∧ ∀ a ∈ chain, P a

/-- An atom put on top of a chain is a chain, when it comes before the top in both files. -/
theorem IsChain.cons {top : UniqueAtom} {chain : List UniqueAtom} (h : IsChain P (top :: chain))
    (hatom : P atom) (hbefore : top.Before atom) : IsChain P (atom :: top :: chain) := by
  obtain ⟨hpair, hall⟩ := h
  refine ⟨List.pairwise_cons.mpr ⟨fun b hb => ?_, hpair⟩, fun b hb => ?_⟩
  · rcases List.mem_cons.mp hb with rfl | hb
    · exact hbefore
    · have hlt := (List.pairwise_cons.mp hpair).1 b hb
      exact ⟨hlt.1.trans hbefore.1, hlt.2.trans hbefore.2⟩
  · rcases List.mem_cons.mp hb with rfl | hb
    · exact hatom
    · exact hall b hb

/-- A card is put on a chain, and the other chains stay. -/
theorem mem_putOnStack {chain : List UniqueAtom} (hatom : P atom)
    (hchains : ∀ chain ∈ patienceStacks, IsChain P chain ∧ ∀ a ∈ chain, a.idx < atom.idx)
    (h : chain ∈ putOnStack patienceStacks atom) :
    IsChain P chain ∧ ∀ a ∈ chain, a.idx ≤ atom.idx := by
  obtain ⟨hle, htop, -⟩ := findTargetStack_spec atom patienceStacks
  unfold putOnStack at h
  dsimp only at h
  generalize findTargetStack atom patienceStacks = target at hle htop h
  have hmem : chain ∈ patienceStacks
      ∨ chain = atom :: if target ≠ 0 then patienceStacks.getD (target - 1) [] else [] := by
    split at h
    · exact (List.mem_append.mp h).imp_right List.mem_singleton.mp
    · exact List.mem_or_eq_of_mem_set h
  rcases hmem with hmem | rfl
  · exact ⟨(hchains chain hmem).1, fun a ha => ((hchains chain hmem).2 a ha).le⟩
  · have hsingle : IsChain P [atom] ∧ ∀ a ∈ [atom], a.idx ≤ atom.idx :=
      ⟨⟨List.pairwise_singleton _ _, fun a ha => List.mem_singleton.mp ha ▸ hatom⟩,
        fun a ha => (List.mem_singleton.mp ha ▸ le_rfl)⟩
    split
    · next hne =>
      have hlt : target - 1 < patienceStacks.length := by omega
      have hget : patienceStacks.getD (target - 1) [] ∈ patienceStacks := by
        rw [List.getD_eq_getElem _ _ hlt]
        exact List.getElem_mem hlt
      obtain ⟨hchain, hidx⟩ := hchains _ hget
      have htop := htop.resolve_left hne
      rw [PatienceStacks.top, List.getElem?_eq_getElem hlt] at htop
      rw [List.getD_eq_getElem _ _ hlt] at hchain hidx ⊢
      cases hprev : patienceStacks[target - 1] with
      | nil => exact hsingle
      | cons top chain =>
        rw [hprev] at htop hchain hidx
        refine ⟨hchain.cons hatom ⟨hidx top List.mem_cons_self, htop⟩, fun b hb => ?_⟩
        rcases List.mem_cons.mp hb with rfl | hb
        · exact le_rfl
        · exact (hidx b hb).le
    · exact hsingle

/-- Every stack holds a chain, whatever was put on it and in which order. -/
theorem mem_foldl_putOnStack {chain : List UniqueAtom} (hP : ∀ a ∈ uniques, P a)
    (hsorted : uniques.Pairwise (fun a b => a.idx < b.idx))
    (hchains : ∀ chain ∈ patienceStacks, IsChain P chain
      ∧ ∀ a ∈ chain, ∀ b ∈ uniques, a.idx < b.idx)
    (h : chain ∈ uniques.foldl putOnStack patienceStacks) : IsChain P chain := by
  induction uniques generalizing patienceStacks with
  | nil => exact (hchains chain h).1
  | cons atom uniques ih =>
    obtain ⟨hlt, hsorted⟩ := List.pairwise_cons.mp hsorted
    refine ih (fun a ha => hP a (List.mem_cons_of_mem _ ha)) hsorted (fun chain hchain => ?_) h
    obtain ⟨hchain, hidx⟩ := mem_putOnStack (hP atom List.mem_cons_self)
      (fun chain hchain => ⟨(hchains chain hchain).1,
        fun a ha => (hchains chain hchain).2 a ha atom List.mem_cons_self⟩) hchain
    exact ⟨hchain, fun a ha b hb => (hidx a ha).trans_lt (hlt b hb)⟩

/-- **The sequence is in the same order on both sides.** -/
theorem patienceLcs_spec (hP : ∀ a ∈ uniques, P a)
    (hsorted : uniques.Pairwise (fun a b => a.idx < b.idx)) :
    (patienceLcs uniques).Pairwise UniqueAtom.Before ∧ ∀ a ∈ patienceLcs uniques, P a := by
  have hchain : IsChain P ((uniques.foldl putOnStack []).getLastD []) := by
    cases hlast : uniques.foldl putOnStack [] with
    | nil => exact ⟨List.Pairwise.nil, fun _ h => absurd h List.not_mem_nil⟩
    | cons chain chains =>
      rw [List.getLastD_cons]
      refine mem_foldl_putOnStack hP hsorted (fun _ h => absurd h List.not_mem_nil) ?_
      rw [hlast]
      exact List.getLastD_mem_cons
  exact ⟨List.pairwise_reverse.mpr hchain.1, fun a ha => hchain.2 a (List.mem_reverse.mp ha)⟩

end Stacks

/-! ## The sections -/

/-- What is between the atoms of the sequence is left unsolved. -/
theorem patienceSections_spec {left right : DiffData} {leftPos rightPos : ℕ}
    {lcs : List UniqueAtom} (hat : state.At root (left.start + leftPos) (right.start + rightPos))
    (hleft : leftPos ≤ left.len) (hright : rightPos ≤ right.len)
    (horder : lcs.Pairwise UniqueAtom.Before)
    (hlcs : ∀ a ∈ lcs, leftPos ≤ a.idx ∧ rightPos ≤ a.posInOther ∧ a.idx < left.len
      ∧ a.posInOther < right.len
      ∧ root.same (left.start + a.idx) (right.start + a.posInOther) = true) :
    (patienceSections left right leftPos rightPos lcs state).At root (left.start + left.len)
      (right.start + right.len) := by
  induction lcs generalizing leftPos rightPos state with
  | nil =>
    have h := hat.addSection (left.len - leftPos) (right.len - rightPos)
    rwa [Nat.add_assoc, Nat.add_assoc, Nat.add_sub_cancel' hleft, Nat.add_sub_cancel' hright] at h
  | cons atom lcs ih =>
    obtain ⟨hl, hr, hlt, hlt', hsame⟩ := hlcs atom List.mem_cons_self
    obtain ⟨hbefore, horder⟩ := List.pairwise_cons.mp horder
    have h := hat.addSection (atom.idx - leftPos) (atom.posInOther - rightPos)
    rw [Nat.add_assoc, Nat.add_assoc, Nat.add_sub_cancel' hl, Nat.add_sub_cancel' hr] at h
    have h := h.addSame one_ne_zero fun i hi => by
      obtain rfl : i = 0 := by omega
      exact hsame
    refine ih h hlt hlt' horder fun a ha => ?_
    obtain ⟨-, -, hin⟩ := hlcs a (List.mem_cons_of_mem _ ha)
    exact ⟨(hbefore a ha).1, (hbefore a ha).2, hin⟩

/-- The atoms that are unique in both files are in order, on the left. -/
theorem uniqueAtoms_spec {left right : DiffData} (hpaired : patience.Paired root left right) :
    (∀ a ∈ uniqueAtoms patience left.len, a.idx < left.len ∧ a.posInOther < right.len
        ∧ root.same (left.start + a.idx) (right.start + a.posInOther) = true)
      ∧ (uniqueAtoms patience left.len).Pairwise (fun a b => a.idx < b.idx) := by
  constructor
  · intro a ha
    obtain ⟨i, -, ha⟩ := List.mem_filterMap.mp ha
    obtain ⟨b, hb, rfl⟩ := Option.map_eq_some_iff.mp ha
    exact hpaired i b hb
  · refine List.pairwise_filterMap.mpr (List.pairwise_lt_range.imp fun hlt a ha b hb => ?_)
    obtain ⟨_, -, rfl⟩ := Option.map_eq_some_iff.mp ha
    obtain ⟨_, -, rfl⟩ := Option.map_eq_some_iff.mp hb
    exact hlt

/-- **`diff_algo_patience` divides what it is given**, or leaves it alone. -/
theorem diffAlgoPatience_spec (hat : state.At root state.left.start state.right.start) :
    diffAlgoPatience root state = (.useDiffAlgoFallback, state)
      ∨ ∃ state', diffAlgoPatience root state = (.ok, state')
        ∧ state'.At root (state.left.start + state.left.len)
          (state.right.start + state.right.len) := by
  unfold diffAlgoPatience
  have hpaired := diffAtomsMarkUniqueInBoth_paired root state.left state.right
  cases hmark : diffAtomsMarkUniqueInBoth root state.left state.right with
  | mk count patience =>
    rw [hmark] at hpaired
    dsimp only at hpaired ⊢
    split
    · exact Or.inl rfl
    · refine Or.inr ⟨_, rfl, ?_⟩
      obtain ⟨hmem, hsorted⟩ := uniqueAtoms_spec hpaired
      obtain ⟨horder, hlcs⟩ := patienceLcs_spec hmem hsorted
      exact patienceSections_spec hat (Nat.zero_le _) (Nat.zero_le _) horder
        fun a ha => ⟨Nat.zero_le _, Nat.zero_le _, hlcs a ha⟩

/-! ## What is left unsolved -/

/-- An atom on the left is paired, if one was counted. -/
theorem markUniqueLoop_count {ig : Bool} {fuel count : ℕ}
    (hcount : count ≠ 0 → ∃ i b, patience .left i = some b)
    (h : (markUniqueLoop ig fuel atoms count patience).1 ≠ 0) :
    ∃ i b, (markUniqueLoop ig fuel atoms count patience).2 .left i = some b := by
  induction fuel generalizing atoms count patience with
  | zero => exact hcount h
  | succ fuel ih =>
    cases atoms with
    | nil => exact hcount h
    | cons a rest =>
      rw [markUniqueLoop] at h ⊢
      cases rest with
      | nil => exact hcount h
      | cons b rest =>
        dsimp only [List.head?_cons] at h ⊢
        split at h
        · next hcounts =>
          rw [if_pos hcounts]
          refine ih (fun _ => ?_) h
          obtain ⟨c, hrun, hside⟩ := counts_iff.mp hcounts
          obtain rfl := (same_of_sameRun hrun).1
          -- one of the two is on the left
          unfold AtomPatience.pair
          cases hc : c.side with
          | left => exact ⟨c.idx, a, if_pos ⟨rfl, rfl⟩⟩
          | right =>
            have ha : a.side = .left := by
              cases hs : a.side with
              | left => rfl
              | right => exact absurd (hs.trans hc.symm) hside
            exact ⟨a.idx, c, by rw [if_neg (fun heq => nomatch heq.1), if_pos ⟨ha.symm, rfl⟩]⟩
        · next hcounts =>
          rw [if_neg hcounts]
          exact ih hcount h

/-- There is a card on each stack, and there is a stack if there are cards. -/
theorem putOnStack_ne_nil {patienceStacks : PatienceStacks} (atom : UniqueAtom)
    (h : ∀ stack ∈ patienceStacks, stack ≠ []) :
    putOnStack patienceStacks atom ≠ [] ∧ ∀ stack ∈ putOnStack patienceStacks atom, stack ≠ [] := by
  have hle := (findTargetStack_spec atom patienceStacks).1
  unfold putOnStack
  dsimp only
  split
  · refine ⟨List.append_ne_nil_of_right_ne_nil _ (List.cons_ne_nil _ _), fun stack hstack => ?_⟩
    rcases List.mem_append.mp hstack with hstack | hstack
    · exact h stack hstack
    · exact List.mem_singleton.mp hstack ▸ List.cons_ne_nil _ _
  · next hne =>
    refine ⟨fun hnil => ?_, fun stack hstack => ?_⟩
    · rw [List.set_eq_nil_iff] at hnil
      rw [hnil] at hle hne
      exact hne (Nat.le_zero.mp hle)
    · rcases List.mem_or_eq_of_mem_set hstack with hstack | rfl
      · exact h stack hstack
      · exact List.cons_ne_nil _ _

/-- Where any atom is unique in both files the longest chain is not empty. -/
theorem patienceLcs_ne_nil {uniques : List UniqueAtom} (h : uniques ≠ []) :
    patienceLcs uniques ≠ [] := by
  have hstacks : ∀ (uniques : List UniqueAtom) (patienceStacks : PatienceStacks),
      (∀ stack ∈ patienceStacks, stack ≠ []) → uniques ≠ [] ∨ patienceStacks ≠ [] →
        uniques.foldl putOnStack patienceStacks ≠ []
          ∧ ∀ stack ∈ uniques.foldl putOnStack patienceStacks, stack ≠ [] := by
    intro uniques
    induction uniques with
    | nil => exact fun patienceStacks h hne => ⟨hne.resolve_left fun h => h rfl, h⟩
    | cons atom uniques ih =>
      intro patienceStacks h _
      obtain ⟨hne, hall⟩ := putOnStack_ne_nil atom h
      exact ih _ hall (Or.inr hne)
  obtain ⟨hne, hall⟩ := hstacks uniques [] (fun _ h => absurd h List.not_mem_nil) (Or.inl h)
  rw [patienceLcs, List.getLastD_eq_getLast?, List.getLast?_eq_some_getLast hne, Option.getD_some]
  exact List.reverse_ne_nil_iff.mpr (hall _ (List.getLast_mem hne))

/-- What is between the atoms of the sequence is less than everything. -/
theorem patienceSections_leaves {left right : DiffData} {leftPos rightPos : ℕ}
    {lcs : List UniqueAtom} (h : state.Leaves (left.len + right.len))
    (hlcs : ∀ a ∈ lcs, a.idx < left.len ∧ a.posInOther < right.len)
    (hne : lcs ≠ [] ∨ 0 < leftPos ∧ 0 < left.len) :
    (patienceSections left right leftPos rightPos lcs state).Leaves (left.len + right.len) := by
  induction lcs generalizing leftPos rightPos state with
  | nil =>
    obtain ⟨hpos, hlen⟩ := hne.resolve_left fun h => h rfl
    exact h.addSection (by omega) _ _
  | cons atom lcs ih =>
    obtain ⟨hl, hr⟩ := hlcs atom List.mem_cons_self
    exact ih ((h.addSection (by omega) _ _).addSolved _ _ _ _)
      (fun a ha => hlcs a (List.mem_cons_of_mem _ ha)) (Or.inr ⟨Nat.succ_pos _, by omega⟩)

/-- **What `diff_algo_patience` leaves unsolved** has fewer atoms than it was given. -/
theorem diffAlgoPatience_leaves (h : state.Leaves (state.left.len + state.right.len)) :
    (diffAlgoPatience root state).2.Leaves (state.left.len + state.right.len) := by
  unfold diffAlgoPatience
  have hpaired := diffAtomsMarkUniqueInBoth_paired root state.left state.right
  have hcount := @markUniqueLoop_count (diffAtomsSort root.ignoreWhitespace
    (placedAtoms .left root.left state.left ++ placedAtoms .right root.right state.right))
    (fun _ _ => none) root.ignoreWhitespace (placedAtoms .left root.left state.left
      ++ placedAtoms .right root.right state.right).length 0 (fun h => absurd rfl h)
  change (diffAtomsMarkUniqueInBoth root state.left state.right).1 ≠ 0 → ∃ i b,
    (diffAtomsMarkUniqueInBoth root state.left state.right).2 .left i = some b at hcount
  cases hmark : diffAtomsMarkUniqueInBoth root state.left state.right with
  | mk count patience =>
    rw [hmark] at hpaired hcount
    dsimp only at hpaired hcount ⊢
    split
    · exact h
    · next hne =>
      obtain ⟨i, b, hb⟩ := hcount hne
      obtain ⟨hmem, hsorted⟩ := uniqueAtoms_spec hpaired
      have huniques : uniqueAtoms patience state.left.len ≠ [] := by
        refine List.ne_nil_of_mem (a := ⟨i, b.idx⟩) (List.mem_filterMap.mpr ⟨i, ?_, ?_⟩)
        · exact List.mem_range.mpr (hpaired i b hb).1
        · rw [hb]
          rfl
      obtain ⟨-, hlcs⟩ := patienceLcs_spec hmem hsorted
      exact patienceSections_leaves h (fun a ha => ⟨(hlcs a ha).1, (hlcs a ha).2.1⟩)
        (Or.inl (patienceLcs_ne_nil huniques))

end Got

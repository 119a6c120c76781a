import Mathlib.Data.List.Chain
import Got.Diff.AtomOrder
import Got.Lib.PatienceSort

/-!
# What patience diff finds

The atoms that are marked are those that are in either part of a file just once, and they are
marked with each other (`MarksUnique`). From them patience sort takes a longest sequence in
the same order on both sides (`IsLongest`).

Each atom of it makes a chunk of its own, and what lies between them is left for another
algorithm, so no chunk overlaps another one. Atoms next to such an atom are not put into its
chunk even if they are the same on both sides: this is left to do in the source, and to the
other algorithm (`not_matchesSwallow_repeated`).
-/

namespace Got

open PatienceSort

variable {root : DiffRoot} {left right : DiffData} {a b c d : PlacedAtom}
  {all atoms rest rest' : List PlacedAtom} {patience : AtomPatience} {count : ℕ}

/-! ## Unique in both files -/

/-- **Two atoms that are unique in both files**: there is one on either side, and no other one is
the same. -/
structure UniqueInBoth (root : DiffRoot) (left right : DiffData) (a b : PlacedAtom) : Prop where
  here : a.In root left right
  other : b.In root left right
  side : a.side ≠ b.side
  only : ∀ c : PlacedAtom, c.In root left right →
    (diffAtomSame root.ignoreWhitespace a.atom c.atom = true ↔ c = a ∨ c = b)

/-- **The unique atoms are marked**, with each other, and counted. -/
structure MarksUnique (root : DiffRoot) (left right : DiffData) (count : ℕ)
    (patience : AtomPatience) :
    Prop where
  marked : ∀ side i b, patience side i = some b
    ↔ ∃ a, UniqueInBoth root left right a b ∧ a.side = side ∧ a.idx = i
  counted : count = (uniqueAtoms patience left.len).length

/-- Where an atom is says which one it is. -/
theorem PlacedAtom.In.eq (ha : a.In root left right) (hb : b.In root left right)
    (hside : a.side = b.side) (hidx : a.idx = b.idx) : a = b := by
  obtain ⟨side, i, atom⟩ := a
  obtain ⟨side', i', atom'⟩ := b
  obtain rfl : side = side' := hside
  obtain rfl : i = i' := hidx
  obtain rfl : atom = atom' := by
    cases side with
    | left => exact Option.some.inj (ha.2.symm.trans hb.2)
    | right => exact Option.some.inj (ha.2.symm.trans hb.2)
  rfl

/-- The placed atoms of a side are the atoms of its part, each with its index. -/
theorem mem_placedAtoms_iff {side : DiffSide} {file : List DiffAtom} {data : DiffData} :
    a ∈ placedAtoms side file data
      ↔ a.side = side ∧ a.idx < data.len ∧ file[data.start + a.idx]? = some a.atom := by
  refine ⟨in_of_mem_placedAtoms, ?_⟩
  rintro ⟨rfl, hlt, hget⟩
  obtain ⟨hlt', hget⟩ := List.getElem?_eq_some_iff.mp hget
  refine List.mem_mapIdx.mpr ⟨a.idx, ?_, ?_⟩
  · rw [List.length_take, List.length_drop]
    omega
  · rw [List.getElem_take, List.getElem_drop, hget]

/-- Among the atoms of both sides are those of the two parts that are compared. -/
theorem mem_all_iff : a ∈ placedAtoms .left root.left left ++ placedAtoms .right root.right right
    ↔ a.In root left right := by
  rw [List.mem_append, mem_placedAtoms_iff, mem_placedAtoms_iff, PlacedAtom.In]
  cases a.side with
  | left => simp
  | right => simp

/-- Each atom of a side is placed once. -/
theorem nodup_placedAtoms (side : DiffSide) (file : List DiffAtom) (data : DiffData) :
    (placedAtoms side file data).Nodup := by
  unfold placedAtoms
  rw [List.nodup_iff_injective_getElem]
  intro i j hij
  simp only [List.getElem_mapIdx, PlacedAtom.mk.injEq] at hij
  exact Fin.ext hij.2.1

/-- Each atom of either side is placed once. -/
theorem nodup_all (root : DiffRoot) (left right : DiffData) :
    (placedAtoms .left root.left left ++ placedAtoms .right root.right right).Nodup := by
  refine List.nodup_append.mpr ⟨nodup_placedAtoms _ _ _, nodup_placedAtoms _ _ _, ?_⟩
  rintro a ha b hb rfl
  have h := (mem_placedAtoms_iff.mp ha).1.symm.trans (mem_placedAtoms_iff.mp hb).1
  cases h

namespace UniqueInBoth

theorem same (h : UniqueInBoth root left right a b) :
    a.atom.key root.ignoreWhitespace = b.atom.key root.ignoreWhitespace :=
  diffAtomSame_iff_key.mp ((h.only b h.other).mpr (Or.inr rfl))

theorem symm (h : UniqueInBoth root left right a b) : UniqueInBoth root left right b a := by
  refine ⟨h.other, h.here, h.side.symm, fun c hc => ?_⟩
  rw [diffAtomSame_iff_key, ← h.same, ← diffAtomSame_iff_key, h.only c hc, or_comm]

/-- There is only one to go with it. -/
theorem eq (h : UniqueInBoth root left right a b) (h' : UniqueInBoth root left right a c) :
    b = c := by
  rcases (h'.only b h.other).mp (diffAtomSame_iff_key.mpr h.same) with rfl | rfl
  · exact absurd rfl h.side
  · rfl

end UniqueInBoth

/-! ## The loop -/

/-- **What is marked** before the rest of the atoms is looked at. -/
structure Marked (root : DiffRoot) (left right : DiffData) (atoms : List PlacedAtom) (count : ℕ)
    (patience : AtomPatience) : Prop where
  marked : ∀ side i b, patience side i = some b
    ↔ ∃ a, UniqueInBoth root left right a b ∧ a.side = side ∧ a.idx = i ∧ a ∉ atoms
  counted : count = (List.range left.len).countP fun i => (patience .left i).isSome

/-- Atoms that are not unique are passed over. -/
theorem Marked.skip (h : Marked root left right atoms count patience)
    (hsub : ∀ c ∈ rest, c ∈ atoms)
    (hnot : ∀ c ∈ atoms, c ∉ rest → ∀ d, ¬UniqueInBoth root left right c d) :
    Marked root left right rest count patience := by
  refine ⟨fun side i b => (h.marked side i b).trans ⟨?_, ?_⟩, h.counted⟩
  · rintro ⟨a, hab, hside, hidx, hmem⟩
    exact ⟨a, hab, hside, hidx, fun h => hmem (hsub a h)⟩
  · rintro ⟨a, hab, hside, hidx, hmem⟩
    exact ⟨a, hab, hside, hidx, fun h => hnot a h hmem b hab⟩

/-- One more is counted if one more is marked. -/
theorem countP_add_one {l : List ℕ} {i : ℕ} {p q : ℕ → Bool} (hl : l.Nodup) (hi : i ∈ l)
    (hp : p i = false) (hq : q i = true) (h : ∀ j, j ≠ i → q j = p j) :
    l.countP q = l.countP p + 1 := by
  have hperm := List.perm_cons_erase hi
  rw [hperm.countP_eq q, hperm.countP_eq p, List.countP_cons_of_pos hq,
    List.countP_cons_of_neg (Bool.not_eq_true _ ▸ hp)]
  refine congrArg (· + 1) (List.countP_congr fun j hj => ?_)
  rw [h j (hl.mem_erase_iff.mp hj).1]

/-- **Two atoms are marked**, the one on the left being named first or second. -/
theorem Marked.pair (h : Marked root left right atoms count patience)
    (hab : UniqueInBoth root left right a b) (ha : a ∈ atoms) (hb : b ∈ atoms)
    (hrest : ∀ c, c ∈ atoms ↔ c = a ∨ c = b ∨ c ∈ rest) (ha' : a ∉ rest) (hb' : b ∉ rest) :
    Marked root left right rest (count + 1) (patience.pair a b) := by
  have hnone : ∀ {a b}, UniqueInBoth root left right a b → a ∈ atoms →
      patience a.side a.idx = none := by
    intro a b hab ha
    by_contra hsome
    obtain ⟨c, hc⟩ := Option.ne_none_iff_exists'.mp hsome
    obtain ⟨a', ha'c, hside, hidx, hmem⟩ := (h.marked _ _ _).mp hc
    exact hmem (ha'c.here.eq hab.here hside hidx ▸ ha)
  have hat : ∀ {a c : PlacedAtom} {side i}, a.In root left right → c.In root left right →
      side = a.side ∧ i = a.idx → c.side = side ∧ c.idx = i → c = a := by
    rintro a c side i ha hc ⟨rfl, rfl⟩ ⟨hside, hidx⟩
    exact hc.eq ha hside hidx
  constructor
  · intro side i c
    unfold AtomPatience.pair
    split
    · next heq =>
      constructor
      · rintro ⟨⟩
        exact ⟨b, hab.symm, heq.1.symm, heq.2.symm, hb'⟩
      · rintro ⟨d, hdc, hside, hidx, -⟩
        obtain rfl := hat hab.other hdc.here heq ⟨hside, hidx⟩
        rw [hab.symm.eq hdc]
    next hne =>
    split
    · next heq =>
      constructor
      · rintro ⟨⟩
        exact ⟨a, hab, heq.1.symm, heq.2.symm, ha'⟩
      · rintro ⟨d, hdc, hside, hidx, -⟩
        obtain rfl := hat hab.here hdc.here heq ⟨hside, hidx⟩
        rw [hab.eq hdc]
    next hne' =>
    rw [h.marked]
    constructor
    · rintro ⟨d, hdc, hside, hidx, hmem⟩
      exact ⟨d, hdc, hside, hidx, fun h => hmem ((hrest d).mpr (Or.inr (Or.inr h)))⟩
    · rintro ⟨d, hdc, rfl, rfl, hmem⟩
      refine ⟨d, hdc, rfl, rfl, fun hd => ?_⟩
      rcases (hrest d).mp hd with rfl | rfl | hd
      · exact hne' ⟨rfl, rfl⟩
      · exact hne ⟨rfl, rfl⟩
      · exact hmem hd
  · rw [h.counted]
    refine (?_ : _ = _).symm
    -- one of the two is on the left
    have hone : ∀ {a b : PlacedAtom} (q : ℕ → Bool), UniqueInBoth root left right a b → a ∈ atoms →
        a.side = .left → q a.idx = true → (∀ j, j ≠ a.idx → q j = (patience .left j).isSome) →
        (List.range left.len).countP q
          = ((List.range left.len).countP fun i => (patience .left i).isSome) + 1 := by
      intro a b q hab ha hside hq hother
      have hin := hab.here
      have hnone := hnone hab ha
      rw [hside] at hnone
      unfold PlacedAtom.In at hin
      rw [hside] at hin
      exact countP_add_one List.nodup_range (List.mem_range.mpr hin.1)
        (by rw [hnone]; rfl) hq hother
    have hside := hab.side
    cases hs : a.side with
    | left =>
      have hbs : DiffSide.left ≠ b.side := hs ▸ hside
      refine hone _ hab ha hs ?_ fun j hj => ?_
      · unfold AtomPatience.pair
        rw [if_neg fun h => hbs h.1, if_pos ⟨hs.symm, rfl⟩]
        rfl
      · unfold AtomPatience.pair
        rw [if_neg fun h => hbs h.1, if_neg fun h => hj h.2]
    | right =>
      have hbs : b.side = .left := by
        cases hb : b.side with
        | left => rfl
        | right => exact absurd (hs.trans hb.symm) hside
      refine hone _ hab.symm hb hbs ?_ fun j hj => ?_
      · unfold AtomPatience.pair
        rw [if_pos ⟨hbs.symm, rfl⟩]
        rfl
      · unfold AtomPatience.pair
        rw [if_neg fun h => hj h.2, if_neg fun h => by rw [hs] at h; cases h.1]

/-- **A run that is not a pair** has no atoms that are unique in both files. -/
theorem not_uniqueInBoth_of_run
    (hall : ∀ a, a ∈ all ↔ a.In root left right)
    (h : Unmarked root.ignoreWhitespace all (a :: rest))
    (hnodup : (a :: rest).Nodup)
    (hrun : ¬∃ b, sameRun root.ignoreWhitespace a rest = [b] ∧ a.side ≠ b.side)
    (hc : c ∈ a :: rest) (hbehind : c ∉ rest.drop (sameRun root.ignoreWhitespace a rest).length) :
    ¬UniqueInBoth root left right c d := by
  intro hcd
  obtain ⟨hsame, hdiffer⟩ := sameRun_spec h.sorted
  have hsplit := sameRun_append_drop root.ignoreWhitespace a rest
  generalize sameRun root.ignoreWhitespace a rest = run at *
  rw [← hsplit] at hc hnodup h
  rw [← hsplit, List.drop_left] at hbehind hdiffer
  have hin : a.In root left right := (hall a).mp (h.mem a List.mem_cons_self)
  have hac : a.atom.key root.ignoreWhitespace = c.atom.key root.ignoreWhitespace := by
    rcases List.mem_cons.mp hc with rfl | hc
    · rfl
    · exact diffAtomSame_iff_key.mp (hsame c ((List.mem_append.mp hc).resolve_right hbehind))
  -- the other one that is unique with it
  obtain ⟨e, hae⟩ : ∃ e, UniqueInBoth root left right a e := by
    rcases (hcd.only a hin).mp (diffAtomSame_iff_key.mpr hac.symm) with rfl | rfl
    · exact ⟨d, hcd⟩
    · exact ⟨c, hcd.symm⟩
  have hne : e ≠ a := fun heq => hae.side (heq ▸ rfl)
  have he := h.closed a List.mem_cons_self e ((hall e).mpr hae.other)
    (diffAtomSame_iff_key.mpr hae.same)
  have he : e ∈ run := by
    refine (List.mem_append.mp ((List.mem_cons.mp he).resolve_left hne)).resolve_right fun he => ?_
    have hnot := hdiffer e he
    rw [diffAtomSame_iff_key.mpr hae.same] at hnot
    cases hnot
  obtain ⟨ha, hnodup⟩ := List.nodup_cons.mp hnodup
  refine hrun ⟨e, List.perm_singleton.mp ?_, hae.side⟩
  refine (List.perm_ext_iff_of_nodup (hnodup.sublist (List.sublist_append_left _ _))
    (List.nodup_singleton e)).mpr fun x => ?_
  rw [List.mem_singleton]
  constructor
  · intro hx
    have hxin := (hall x).mp (h.mem x (List.mem_cons_of_mem a (List.mem_append_left _ hx)))
    rcases (hae.only x hxin).mp (hsame x hx) with rfl | rfl
    · exact absurd (List.mem_append_left _ hx) ha
    · rfl
  · rintro rfl
    exact he

/-- **A run that is a pair** is unique in both files. -/
theorem uniqueInBoth_of_run
    (hall : ∀ a, a ∈ all ↔ a.In root left right)
    (h : Unmarked root.ignoreWhitespace all (a :: rest))
    (hrun : sameRun root.ignoreWhitespace a rest = [b]) (hside : a.side ≠ b.side) :
    UniqueInBoth root left right a b := by
  obtain ⟨hsame, hdiffer⟩ := sameRun_spec h.sorted
  have hsplit := sameRun_append_drop root.ignoreWhitespace a rest
  rw [hrun] at hsame hdiffer hsplit
  rw [← hsplit] at h
  have hb : b ∈ a :: ([b] ++ rest.drop [b].length) :=
    List.mem_cons_of_mem a (List.mem_append_left _ (List.mem_singleton_self b))
  refine ⟨(hall a).mp (h.mem a List.mem_cons_self), (hall b).mp (h.mem b hb), hside,
    fun c hc => ⟨fun hac => ?_, ?_⟩⟩
  · have hmem := h.closed a List.mem_cons_self c ((hall c).mpr hc) hac
    rcases List.mem_cons.mp hmem with rfl | hmem
    · exact Or.inl rfl
    rcases List.mem_append.mp hmem with hmem | hmem
    · exact Or.inr (List.mem_singleton.mp hmem)
    · have hnot := hdiffer c hmem
      rw [hac] at hnot
      cases hnot
  · rintro (rfl | rfl)
    · exact diffAtomSame_iff_key.mpr rfl
    · exact hsame c (List.mem_singleton_self c)

/-- **The loop** marks all atoms that are unique in both files. -/
theorem markUniqueLoop_marked {fuel : ℕ} (hall : ∀ a, a ∈ all ↔ a.In root left right)
    (h : Unmarked root.ignoreWhitespace all atoms) (hnodup : atoms.Nodup)
    (hfuel : atoms.length ≤ fuel)
    (hmarked : Marked root left right atoms count patience) :
    Marked root left right []
      (markUniqueLoop root.ignoreWhitespace fuel atoms count patience).1
      (markUniqueLoop root.ignoreWhitespace fuel atoms count patience).2 := by
  induction fuel generalizing atoms count patience with
  | zero =>
    rw [List.length_eq_zero_iff.mp (Nat.le_zero.mp hfuel)] at hmarked ⊢
    exact hmarked
  | succ fuel ih =>
    cases atoms with
    | nil => exact hmarked
    | cons a rest =>
      have hnodup' := (List.nodup_cons.mp hnodup).2
      have hdrop : ∀ n, ∀ c ∈ rest.drop n, c ∈ a :: rest :=
        fun n c hc => List.mem_cons_of_mem a (List.mem_of_mem_drop hc)
      rw [markUniqueLoop]
      cases rest with
      | nil =>
        refine hmarked.skip (hdrop 0) fun c hc _ d => ?_
        refine not_uniqueInBoth_of_run hall h hnodup ?_ hc List.not_mem_nil
        rintro ⟨b, hrun, -⟩
        cases hrun
      | cons b rest =>
        dsimp only [List.head?_cons]
        have hlen : ((b :: rest).drop
            (sameRun root.ignoreWhitespace a (b :: rest)).length).length ≤ fuel := by
          rw [List.length_drop]
          rw [List.length_cons] at hfuel
          omega
        split
        · next hcounts =>
          obtain ⟨c, hrun, hside⟩ := counts_iff.mp hcounts
          obtain rfl := (same_of_sameRun hrun).1
          have hab := uniqueInBoth_of_run hall h hrun hside
          refine ih h.drop (hnodup'.sublist (List.drop_sublist _ _)) hlen ?_
          rw [hrun]
          obtain ⟨ha, hnodup'⟩ := List.nodup_cons.mp hnodup
          exact hmarked.pair hab List.mem_cons_self (List.mem_cons_of_mem _ List.mem_cons_self)
            (fun d => by rw [List.mem_cons, List.mem_cons]; rfl)
            (fun hmem => ha (List.mem_cons_of_mem _ hmem)) (List.nodup_cons.mp hnodup').1
        · next hcounts =>
          refine ih h.drop (hnodup'.sublist (List.drop_sublist _ _)) hlen
            (hmarked.skip (hdrop _) fun c hc hbehind d => ?_)
          exact not_uniqueInBoth_of_run hall h hnodup
            (fun hex => hcounts (counts_iff.mpr hex)) hc hbehind

variable (root left right) in
/-- **`diff_atoms_mark_unique_in_both` marks the atoms that are unique in both files.** -/
theorem diffAtomsMarkUniqueInBoth_marksUnique :
    MarksUnique root left right (diffAtomsMarkUniqueInBoth root left right).1
      (diffAtomsMarkUniqueInBoth root left right).2 := by
  have hperm := List.perm_insertionSort
    (fun a b => diffAtomsCompar root.ignoreWhitespace a b ≠ .gt)
    (placedAtoms .left root.left left ++ placedAtoms .right root.right right)
  have h : Marked root left right [] (diffAtomsMarkUniqueInBoth root left right).1
      (diffAtomsMarkUniqueInBoth root left right).2 := by
    refine markUniqueLoop_marked (fun a => mem_all_iff) ⟨pairwise_diffAtomsSort _ _,
      fun a ha => hperm.mem_iff.mp ha, fun a _ c hc _ => hperm.mem_iff.mpr hc⟩
      (hperm.nodup_iff.mpr (nodup_all root left right)) hperm.length_eq.le ?_
    refine ⟨fun side i b => iff_of_false (fun h => by cases h) ?_, ?_⟩
    · rintro ⟨a, hab, -, -, hmem⟩
      exact hmem (hperm.mem_iff.mpr (mem_all_iff.mpr hab.here))
    · refine (List.countP_eq_zero.mpr fun i _ h => ?_).symm
      cases h
  refine ⟨fun side i b => ?_, ?_⟩
  · simpa using h.marked side i b
  · rw [h.counted, uniqueAtoms, List.length_filterMap_eq_countP]
    refine List.countP_congr fun i _ => ?_
    rw [Option.isSome_map]

/-! ## A longest sequence -/

variable {patienceStacks : PatienceStacks} {atom x y : UniqueAtom}
    {dealt uniques seq lcs : List UniqueAtom}

/-- An atom on the left, and where it is on the right, if it is unique in both files. -/
def UniqueAtom.InBoth (root : DiffRoot) (left right : DiffData) (x : UniqueAtom) : Prop :=
  ∃ a b, UniqueInBoth root left right a b ∧ a.side = .left ∧ a.idx = x.idx ∧ b.idx = x.posInOther

/-- **A longest sequence** of atoms that are unique in both files, in the same order there. -/
structure IsLongest (root : DiffRoot) (left right : DiffData) (lcs : List UniqueAtom) : Prop where
  unique : ∀ x ∈ lcs, x.InBoth root left right
  ordered : lcs.Pairwise UniqueAtom.Before
  longest : ∀ seq : List UniqueAtom, (∀ x ∈ seq, x.InBoth root left right) →
    seq.Pairwise UniqueAtom.Before → seq.length ≤ lcs.length

/-- **The stacks** after some cards, with one more card on a chain than stacks before it. -/
structure Piled (dealt : List UniqueAtom) (patienceStacks : PatienceStacks) : Prop where
  stacked : Stacked UniqueAtom.posInOther dealt patienceStacks.length patienceStacks.top
  chain : ∀ i chain, patienceStacks[i]? = some chain → chain.length = i + 1

/-- Putting an atom on its stack changes this stack only; the chain below it is the one of the stack
to the left. -/
theorem getElem?_putOnStack (patienceStacks : PatienceStacks) (atom : UniqueAtom) (i : ℕ) :
    (putOnStack patienceStacks atom)[i]? = if i = findTargetStack atom patienceStacks
      then some (atom :: if findTargetStack atom patienceStacks ≠ 0
        then patienceStacks.getD (findTargetStack atom patienceStacks - 1) [] else [])
      else patienceStacks[i]? := by
  have hle := (findTargetStack_spec atom patienceStacks).1
  unfold putOnStack
  dsimp only
  generalize findTargetStack atom patienceStacks = target at hle
  split
  · next heq =>
    rw [List.getElem?_append]
    by_cases hi : i = target
    · rw [if_neg (by omega), if_pos hi, hi, heq, Nat.sub_self]
      rfl
    rw [if_neg hi]
    split
    · rfl
    · rw [List.getElem?_eq_none_iff.mpr (by rw [List.length_singleton]; omega),
        List.getElem?_eq_none_iff.mpr (by omega)]
  · next hne =>
    rw [List.getElem?_set]
    split
    · next heq => rw [if_pos (by omega), if_pos heq.symm]
    · next hi => rw [if_neg (Ne.symm hi)]

/-- There is a new stack exactly when the atom goes behind all others. -/
theorem length_putOnStack (patienceStacks : PatienceStacks) (atom : UniqueAtom) :
    (putOnStack patienceStacks atom).length
      = max patienceStacks.length (findTargetStack atom patienceStacks + 1) := by
  have hle := (findTargetStack_spec atom patienceStacks).1
  unfold putOnStack
  dsimp only
  split
  · rw [List.length_append, List.length_singleton]
    omega
  · rw [List.length_set]
    omega

/-- **A card is put on a stack.** -/
theorem Piled.put (h : Piled dealt patienceStacks) (atom : UniqueAtom) :
    Piled (dealt ++ [atom]) (putOnStack patienceStacks atom) := by
  obtain ⟨hle, hbefore, hbehind⟩ := findTargetStack_spec atom patienceStacks
  constructor
  · rw [length_putOnStack]
    refine h.stacked.deal (h.stacked.isTarget hle hbefore hbehind) ?_ fun i _ hne => ?_
    · unfold PatienceStacks.top
      rw [getElem?_putOnStack, if_pos rfl]
    · unfold PatienceStacks.top
      rw [getElem?_putOnStack, if_neg hne]
  · intro i chain hchain
    rw [getElem?_putOnStack] at hchain
    split at hchain
    · next heq =>
      obtain rfl := Option.some.inj hchain
      rw [List.length_cons, heq]
      split
      · next hne =>
        have hlt : findTargetStack atom patienceStacks - 1 < patienceStacks.length := by omega
        rw [List.getD_eq_getElem _ _ hlt,
          h.chain _ _ (List.getElem?_eq_getElem hlt), Nat.sub_add_cancel (Nat.pos_of_ne_zero hne)]
      · next hzero =>
        rw [not_not.mp hzero]
        rfl
    · exact h.chain i chain hchain

/-- However many atoms are dealt, the stacks are piled as they should be. -/
theorem Piled.foldl (h : Piled dealt patienceStacks) (uniques : List UniqueAtom) :
    Piled (dealt ++ uniques) (uniques.foldl putOnStack patienceStacks) := by
  induction uniques generalizing dealt patienceStacks with
  | nil => rwa [List.append_nil]
  | cons atom uniques ih =>
    have h := ih (h.put atom)
    rwa [List.append_assoc] at h

/-- **There are as many atoms in the sequence as there are stacks**, so no sequence is longer. -/
theorem length_le_patienceLcs (hseq : IsIncreasing UniqueAtom.posInOther uniques seq) :
    seq.length ≤ (patienceLcs uniques).length := by
  have h : Piled uniques (uniques.foldl putOnStack []) :=
    @Piled.foldl [] [] ⟨Stacked.nil _ _, fun i chain h => by cases h⟩ uniques
  refine (h.stacked.length_le hseq).trans_eq ?_
  rw [patienceLcs, List.length_reverse, List.getLastD_eq_getLast?, List.getLast?_eq_getElem?]
  cases hlen : (uniques.foldl putOnStack []).length with
  | zero =>
    rw [List.length_eq_zero_iff.mp hlen]
    rfl
  | succ n =>
    rw [List.getElem?_eq_getElem (by omega), Option.getD_some,
      h.chain _ _ (List.getElem?_eq_getElem (by omega))]
    omega

/-- After marking, the atoms that are left are those that occur once on either side. -/
theorem mem_uniqueAtoms_iff (h : MarksUnique root left right count patience) :
    x ∈ uniqueAtoms patience left.len ↔ x.InBoth root left right := by
  rw [uniqueAtoms, List.mem_filterMap]
  constructor
  · rintro ⟨i, -, hx⟩
    obtain ⟨b, hb, rfl⟩ := Option.map_eq_some_iff.mp hx
    obtain ⟨a, hab, hside, hidx⟩ := (h.marked _ _ _).mp hb
    exact ⟨a, b, hab, hside, hidx, rfl⟩
  · rintro ⟨a, b, hab, hside, hidx, hpos⟩
    have hb := (h.marked .left x.idx b).mpr ⟨a, hab, hside, hidx⟩
    have hin := hab.here
    unfold PlacedAtom.In at hin
    rw [hside] at hin
    refine ⟨x.idx, List.mem_range.mpr (hidx ▸ hin.1), ?_⟩
    rw [hb, Option.map_some, hpos]

/-- **Patience sort finds a longest sequence.** -/
theorem patienceLcs_isLongest (h : MarksUnique root left right count patience)
    (hpaired : patience.Paired root left right) :
    IsLongest root left right (patienceLcs (uniqueAtoms patience left.len)) := by
  obtain ⟨-, hsorted⟩ := uniqueAtoms_spec hpaired
  obtain ⟨hordered, hmem⟩ := patienceLcs_spec (fun x hx => (mem_uniqueAtoms_iff h).mp hx) hsorted
  refine ⟨hmem, hordered, fun seq hseq hpair => length_le_patienceLcs ⟨?_, hpair.imp fun h => h.2⟩⟩
  -- it is in the order of the atoms on the left
  have hidx : seq.Pairwise fun x y => x.idx < y.idx := hpair.imp fun h => h.1
  have hnodup : seq.Nodup := hidx.imp fun hlt heq => hlt.ne (congrArg UniqueAtom.idx heq)
  have hanti : Std.Antisymm (fun x y : UniqueAtom => x.idx < y.idx) :=
    ⟨fun x y hxy hyx => absurd hxy hyx.asymm⟩
  exact List.sublist_of_subperm_of_pairwise
    (List.subperm_of_subset hnodup fun x hx => (mem_uniqueAtoms_iff h).mpr (hseq x hx)) hidx hsorted

/-! ## The chunks -/

variable {state : DiffState} {chunks chunks' : List DiffChunk} {l r l' r' l'' r'' : ℕ}

/-- Chunks that fit end to end can be appended. -/
theorem FromTo.trans (h : FromTo root l r chunks l' r') (h' : FromTo root l' r' chunks' l'' r'') :
    FromTo root l r (chunks ++ chunks') l'' r'' := by
  induction chunks generalizing l r with
  | nil =>
    obtain ⟨rfl, rfl⟩ := h
    exact h'
  | cons c chunks ih =>
    obtain ⟨hl, hr, hc, h⟩ := h
    exact ⟨hl, hr, hc, ih h⟩

/-- **A chunk that lies between two matches**, as patience diff leaves it.

Only what has atoms on both sides is work for another algorithm. Where one side is empty there is
nothing left to compare, so the chunk is solved as it is: lines that were removed, or added. -/
structure DiffChunk.Between (c : DiffChunk) : Prop where
  /-- It is no match, even if its atoms are the same on both sides. -/
  notSame : c.type ≠ .same
  nonempty : c.leftCount ≠ 0 ∨ c.rightCount ≠ 0
  /-- It is left unsolved just if both sides of it have atoms. -/
  unsolved : c.solved = false ↔ c.leftCount ≠ 0 ∧ c.rightCount ≠ 0

/-- A section is one chunk, if there is anything in it, and no match. -/
theorem exists_chunks_addSection (root : DiffRoot) (state : DiffState) (l leftLen r rightLen : ℕ) :
    ∃ chunks, diffStateAddSection state l leftLen r rightLen = chunks.foldl diffStateAddChunk state
      ∧ FromTo root l r chunks (l + leftLen) (r + rightLen) ∧ chunks.length ≤ 1
      ∧ ∀ c ∈ chunks, c.Between := by
  unfold diffStateAddSection
  split
  · next hboth =>
    refine ⟨[⟨false, l, leftLen, r, rightLen⟩], rfl, ⟨rfl, rfl, fun h => (by cases h), rfl, rfl⟩,
      le_rfl, fun c hc => ?_⟩
    obtain rfl := List.mem_singleton.mp hc
    refine ⟨?_, Or.inl hboth.1, iff_of_true rfl hboth⟩
    rw [DiffChunk.type, if_neg (fun h => hboth.1 h.1), if_pos Bool.false_ne_true]
    exact fun h => by cases h
  next hboth =>
  split
  · next hleft =>
    obtain rfl : rightLen = 0 := not_not.mp fun hne => hboth ⟨hleft, hne⟩
    refine ⟨[⟨true, l, leftLen, r, 0⟩], rfl, ⟨rfl, rfl, fun _ => ⟨rfl, Or.inl hleft,
      fun _ hne => absurd rfl hne⟩, rfl, rfl⟩, le_rfl, fun c hc => ?_⟩
    obtain rfl := List.mem_singleton.mp hc
    refine ⟨?_, Or.inl hleft, iff_of_false (fun h => by cases h) hboth⟩
    rw [DiffChunk.type, if_neg (fun h => hleft h.1), if_neg (not_not.mpr rfl), if_pos rfl]
    exact fun h => by cases h
  next hleft =>
  obtain rfl := not_not.mp hleft
  split
  · next hright =>
    refine ⟨[⟨true, l, 0, r, rightLen⟩], rfl, ⟨rfl, rfl, fun _ => ⟨rfl, Or.inr hright,
      fun hne => absurd rfl hne⟩, rfl, rfl⟩, le_rfl, fun c hc => ?_⟩
    obtain rfl := List.mem_singleton.mp hc
    refine ⟨?_, Or.inr hright, iff_of_false (fun h => by cases h) hboth⟩
    rw [DiffChunk.type, if_neg (fun h => hright h.2), if_neg (not_not.mpr rfl), if_neg hright,
      if_pos rfl]
    exact fun h => by cases h
  · next hright =>
    obtain rfl := not_not.mp hright
    exact ⟨[], rfl, ⟨rfl, rfl⟩, Nat.zero_le _, fun c hc => absurd hc List.not_mem_nil⟩

/-- Of two chunks that follow each other, one is a match: what lies between two matches has not
been cut into pieces. -/
def OneIsSame (c c' : DiffChunk) : Prop :=
  c.type = .same ∨ c'.type = .same

/-- A single chunk in front of a match keeps matches and what is between them apart. -/
theorem isChain_section {c : DiffChunk} (h : chunks.length ≤ 1) (hc : c.type = .same)
    (hchain : chunks'.IsChain OneIsSame) : (chunks ++ c :: chunks').IsChain OneIsSame := by
  have hcons : (c :: chunks').IsChain OneIsSame := hchain.cons fun _ _ => Or.inl hc
  match chunks, h with
  | [], _ => exact hcons
  | [_], _ => exact hcons.cons_cons (Or.inr hc)

/-- A match, of one atom. -/
def UniqueAtom.chunk (left right : DiffData) (x : UniqueAtom) : DiffChunk :=
  ⟨true, left.start + x.idx, 1, right.start + x.posInOther, 1⟩

/-- **One chunk is behind the other**, and the matches are those of the sequence. -/
theorem exists_chunks_patienceSections {leftPos rightPos : ℕ} (state : DiffState)
    (hleft : leftPos ≤ left.len) (hright : rightPos ≤ right.len)
    (horder : lcs.Pairwise UniqueAtom.Before)
    (hlcs : ∀ a ∈ lcs, leftPos ≤ a.idx ∧ rightPos ≤ a.posInOther ∧ a.idx < left.len
      ∧ a.posInOther < right.len
      ∧ root.same (left.start + a.idx) (right.start + a.posInOther) = true) :
    ∃ chunks, patienceSections left right leftPos rightPos lcs state
        = chunks.foldl diffStateAddChunk state
      ∧ FromTo root (left.start + leftPos) (right.start + rightPos) chunks (left.start + left.len)
        (right.start + right.len)
      ∧ chunks.filter (fun c => c.type = .same) = lcs.map (UniqueAtom.chunk left right)
      ∧ (∀ c ∈ chunks, c.type ≠ .same → c.Between) ∧ chunks.IsChain OneIsSame := by
  have hfilter : ∀ chunks : List DiffChunk, (∀ c ∈ chunks, c.Between) →
      chunks.filter (fun c => c.type = .same) = [] :=
    fun chunks h => List.filter_eq_nil_iff.mpr fun c hc => by simpa using (h c hc).notSame
  induction lcs generalizing leftPos rightPos state with
  | nil =>
    obtain ⟨chunks, heq, hfrom, hone, hbetween⟩ := exists_chunks_addSection root state
      (left.start + leftPos) (left.len - leftPos) (right.start + rightPos) (right.len - rightPos)
    rw [Nat.add_assoc, Nat.add_assoc, Nat.add_sub_cancel' hleft, Nat.add_sub_cancel' hright]
      at hfrom
    refine ⟨chunks, heq, hfrom, hfilter chunks hbetween, fun c hc _ => hbetween c hc, ?_⟩
    match chunks, hone with
    | [], _ => exact List.isChain_nil
    | [c], _ => exact List.isChain_singleton c
  | cons atom lcs ih =>
    obtain ⟨hl, hr, hlt, hlt', hsame⟩ := hlcs atom List.mem_cons_self
    obtain ⟨hbefore, horder⟩ := List.pairwise_cons.mp horder
    obtain ⟨chunks, heq, hfrom, hone, hbetween⟩ := exists_chunks_addSection root state
      (left.start + leftPos) (atom.idx - leftPos) (right.start + rightPos)
      (atom.posInOther - rightPos)
    rw [Nat.add_assoc, Nat.add_assoc, Nat.add_sub_cancel' hl, Nat.add_sub_cancel' hr] at hfrom
    obtain ⟨chunks', heq', hfrom', hmatches, hbetween', hchain⟩ := ih
      (diffStateAddChunk (chunks.foldl diffStateAddChunk state) (atom.chunk left right)) hlt hlt'
      horder
      fun a ha => by
        obtain ⟨-, -, hin⟩ := hlcs a (List.mem_cons_of_mem _ ha)
        exact ⟨(hbefore a ha).1, (hbefore a ha).2, hin⟩
    have hgood : (atom.chunk left right).Good root := by
      refine ⟨rfl, Or.inl one_ne_zero, fun _ _ => ⟨rfl, fun i hi => ?_⟩⟩
      obtain rfl : i = 0 := Nat.lt_one_iff.mp hi
      exact hsame
    have htype : (atom.chunk left right).type = .same := rfl
    refine ⟨chunks ++ atom.chunk left right :: chunks', ?_,
      hfrom.trans ⟨rfl, rfl, fun _ => hgood, hfrom'⟩, ?_, fun c hc hne => ?_,
      isChain_section hone htype hchain⟩
    · rw [patienceSections, heq, List.foldl_append]
      exact heq'
    · rw [List.filter_append, hfilter chunks hbetween,
        List.filter_cons_of_pos (by simpa using htype), hmatches]
      rfl
    · rcases List.mem_append.mp hc with hc | hc
      · exact hbetween c hc
      · rcases List.mem_cons.mp hc with rfl | hc
        · exact absurd htype hne
        · exact hbetween' c hc hne

/-- **What `diff_algo_patience` does**: the atoms that are unique in both files are marked, a
longest sequence of them in the same order is found, and each atom of it is a match of its own.
What lies between two matches, before the first or behind the last one, is a single chunk, left
unsolved for another algorithm if it has atoms on both sides. No chunk overlaps another one, as
each begins where the one before it ends. -/
theorem diffAlgoPatience_isLongest (root : DiffRoot) (state : DiffState) :
    ∃ count patience lcs, diffAtomsMarkUniqueInBoth root state.left state.right = (count, patience)
      ∧ MarksUnique root state.left state.right count patience
      ∧ lcs = patienceLcs (uniqueAtoms patience state.left.len)
      ∧ IsLongest root state.left state.right lcs
      ∧ (count = 0 → diffAlgoPatience root state = (.useDiffAlgoFallback, state))
      ∧ (count ≠ 0 → ∃ chunks,
        diffAlgoPatience root state = (.ok, chunks.foldl diffStateAddChunk state)
          ∧ FromTo root state.left.start state.right.start chunks
            (state.left.start + state.left.len) (state.right.start + state.right.len)
          ∧ chunks.filter (fun c => c.type = .same)
            = lcs.map (UniqueAtom.chunk state.left state.right)
          ∧ (∀ c ∈ chunks, c.type ≠ .same → c.Between) ∧ chunks.IsChain OneIsSame) := by
  have hmarks := diffAtomsMarkUniqueInBoth_marksUnique root state.left state.right
  have hpaired := diffAtomsMarkUniqueInBoth_paired root state.left state.right
  refine ⟨_, _, _, rfl, hmarks, rfl, patienceLcs_isLongest hmarks hpaired, fun hzero => ?_,
    fun hne => ?_⟩
  · unfold diffAlgoPatience
    exact if_pos hzero
  · obtain ⟨hmem, hsorted⟩ := uniqueAtoms_spec hpaired
    obtain ⟨horder, hlcs⟩ := patienceLcs_spec hmem hsorted
    obtain ⟨chunks, heq, hspec⟩ := exists_chunks_patienceSections state (Nat.zero_le _)
      (Nat.zero_le _) horder fun a ha => ⟨Nat.zero_le _, Nat.zero_le _, hlcs a ha⟩
    refine ⟨chunks, ?_, hspec⟩
    unfold diffAlgoPatience
    exact (if_neg hne).trans (congrArg _ heq)

/-- **Matches swallow what is next to them**: atoms directly behind a match that are the same on
both sides are in a match. -/
def MatchesSwallow (root : DiffRoot) (left right : DiffData) (chunks : List DiffChunk) : Prop :=
  ∀ c ∈ chunks, c.type = .same → c.leftEnd < left.start + left.len →
    c.rightEnd < right.start + right.len → root.same c.leftEnd c.rightEnd = true →
    ∃ c' ∈ chunks, c'.type = .same ∧ c'.leftStart ≤ c.leftEnd ∧ c.leftEnd < c'.leftEnd

instance (root : DiffRoot) (left right : DiffData) (chunks : List DiffChunk) :
    Decidable (MatchesSwallow root left right chunks) :=
  inferInstanceAs (Decidable (∀ c ∈ chunks, _ → _ → _ → _ → ∃ c' ∈ chunks, _))

/-- An atom that is unique in both files is a match, but atoms directly behind it which are repeated
are left for another algorithm, even if the files are the same. -/
theorem not_matchesSwallow_repeated :
    ∃ state', diffAlgoPatience
        ⟨[⟨1, [97]⟩, ⟨2, [98]⟩, ⟨2, [98]⟩], [⟨1, [97]⟩, ⟨2, [98]⟩, ⟨2, [98]⟩], false⟩
        ⟨[], [], ⟨0, 3⟩, ⟨0, 3⟩, 0⟩ = (.ok, state')
      ∧ ¬MatchesSwallow
        ⟨[⟨1, [97]⟩, ⟨2, [98]⟩, ⟨2, [98]⟩], [⟨1, [97]⟩, ⟨2, [98]⟩, ⟨2, [98]⟩], false⟩
        ⟨0, 3⟩ ⟨0, 3⟩ (state'.result ++ state'.tempResult) := by
  refine ⟨⟨[⟨true, 0, 1, 0, 1⟩], [⟨false, 1, 2, 1, 2⟩], ⟨0, 3⟩, ⟨0, 3⟩, 0⟩, ?_, by decide⟩
  rfl

end Got

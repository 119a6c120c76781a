import Mathlib.Data.List.Lex
import Mathlib.Data.Prod.Lex
import Got.Diff.Patience

/-!
# The order of atoms

Patience diff sorts the atoms of both files, by their hash first and then by their bytes, to
find those that are the same. The comparison is that of a linear order on what is compared of
an atom (`PlacedAtom.key`), with white space ignored or not.

So atoms that are the same stand side by side in what is sorted, and a run of them is found
as a whole (`sameRun_spec`): none is left behind it.
-/

namespace Got

variable {a b c : PlacedAtom} {all atoms rest : List PlacedAtom} {ig : Bool}

/-! ## Bytes -/

/-- Bytes as numbers, which are ordered like words in a dictionary. -/
def byteKey (bytes : Bytes) : List ℕ := bytes.map UInt8.toNat

theorem byteKey_injective : Function.Injective byteKey :=
  List.map_injective_iff.mpr fun _ _ h => UInt8.toNat_inj.mp h

/-- Byte strings are compared at the first byte, and behind it if it is the same. -/
theorem byteKey_cons_lt_iff (x y : UInt8) (left right : Bytes) :
    byteKey (x :: left) < byteKey (y :: right) ↔
      x < y ∨ x = y ∧ byteKey left < byteKey right := by
  unfold byteKey
  rw [List.map_cons, List.map_cons, List.cons_lt_cons_iff, UInt8.toNat_inj]
  rfl

theorem byteKey_nil_lt_iff (right : Bytes) : byteKey [] < byteKey right ↔ right ≠ [] := by
  cases right with
  | nil => exact iff_of_false (lt_irrefl _) fun h => h rfl
  | cons y right => exact iff_of_true (List.nil_lt_cons _ _) (List.cons_ne_nil _ _)

theorem not_byteKey_lt_nil (left : Bytes) : ¬byteKey left < byteKey [] := List.not_lt_nil _

/-- One byte after another is compared. -/
theorem bufCmp_cons (x y : UInt8) (left right : Bytes) :
    bufCmp (x :: left) (y :: right) false
      = if x < y then .lt else if y < x then .gt else bufCmp left right false := by
  show (memcmp _ _).then _ = if x < y then .lt else if y < x then .gt else (memcmp _ _).then _
  rw [List.length_cons, List.length_cons, Nat.succ_min_succ, List.take_succ_cons,
    List.take_succ_cons, memcmp]
  simp only [Nat.compare_eq_ite_lt, Nat.add_lt_add_iff_right]
  split
  · rfl
  split
  · rfl
  · rfl

/-- `bufCmp` orders two buffers as byte strings. -/
theorem bufCmp_eq_gt_iff (left right : Bytes) :
    bufCmp left right false = .gt ↔ byteKey right < byteKey left := by
  induction left generalizing right with
  | nil =>
    refine iff_of_false (fun h => ?_) (not_byteKey_lt_nil right)
    cases right with
    | nil => exact nomatch h
    | cons y right => exact nomatch h
  | cons x left ih =>
    cases right with
    | nil => exact iff_of_true rfl ((byteKey_nil_lt_iff _).mpr (List.cons_ne_nil _ _))
    | cons y right =>
      rw [bufCmp_cons, byteKey_cons_lt_iff]
      split
      · rename_i hlt
        refine iff_of_false (fun h => (nomatch h)) ?_
        rintro (hgt | ⟨rfl, -⟩)
        · exact UInt8.lt_asymm hlt hgt
        · exact UInt8.lt_irrefl _ hlt
      · rename_i hnlt
        split
        · rename_i hgt
          exact iff_of_true rfl (Or.inl hgt)
        · rename_i hngt
          have heq : y = x := UInt8.le_antisymm (UInt8.not_lt.mp hnlt) (UInt8.not_lt.mp hngt)
          rw [ih, or_iff_right hngt, and_iff_right heq]

/-- With whitespace ignored, the order is the one of what is left of the two buffers. -/
theorem bufCmpIgnoreWhitespace_eq_gt_iff (left right : Bytes) :
    bufCmpIgnoreWhitespace left right = .gt ↔
      byteKey (right.filter (fun c => !isspace c))
        < byteKey (left.filter (fun c => !isspace c)) := by
  fun_induction bufCmpIgnoreWhitespace left right with
  | case1 cl left cr right hl ih => simpa [hl] using ih
  | case2 cl left cr right hl hr ih => simpa [hr] using ih
  | case3 cl left cr right hl hr hgt =>
    rw [List.filter_cons_of_pos (by simpa using hr), List.filter_cons_of_pos (by simpa using hl),
      byteKey_cons_lt_iff]
    exact iff_of_true rfl (Or.inl hgt)
  | case4 cl left cr right hl hr hngt hgt =>
    rw [List.filter_cons_of_pos (by simpa using hr), List.filter_cons_of_pos (by simpa using hl),
      byteKey_cons_lt_iff]
    refine iff_of_false (fun h => (by cases h)) ?_
    rintro (h | ⟨rfl, -⟩)
    · exact hngt h
    · exact UInt8.lt_irrefl _ hgt
  | case5 cl left cr right hl hr hngt hngt' ih =>
    have heq : cr = cl := UInt8.le_antisymm (UInt8.not_lt.mp hngt') (UInt8.not_lt.mp hngt)
    rw [List.filter_cons_of_pos (by simpa using hr), List.filter_cons_of_pos (by simpa using hl),
      byteKey_cons_lt_iff, or_iff_right hngt, and_iff_right heq, ih]
  | case6 left hall =>
    refine iff_of_false (fun h => (by cases h)) ?_
    rw [@List.filter_eq_nil_iff _ _ left |>.mpr (by simpa using hall)]
    exact lt_irrefl _
  | case7 left hall =>
    refine iff_of_true rfl ((byteKey_nil_lt_iff _).mpr fun h => hall ?_)
    simpa [List.filter_eq_nil_iff] using h
  | case8 right hne hall =>
    exact iff_of_false (fun h => (by cases h)) (not_byteKey_lt_nil _)
  | case9 right hne hall =>
    exact iff_of_false (fun h => (by cases h)) (not_byteKey_lt_nil _)

/-! ## Atoms -/

/-- Two atoms are compared by their text, with or without whitespace. -/
theorem diffAtomCmp_eq_gt_iff (ig : Bool) (left right : DiffAtom) :
    diffAtomCmp ig left right = .gt ↔ byteKey (right.text ig) < byteKey (left.text ig) := by
  unfold diffAtomCmp DiffAtom.text
  cases ig with
  | true =>
    have hcmp := bufCmpIgnoreWhitespace_eq_gt_iff left.data right.data
    have hnil : ¬byteKey [] < byteKey [] := lt_irrefl _
    grind [bufCmp]
  | false =>
    have hcmp := bufCmp_eq_gt_iff left.data right.data
    have hleft := byteKey_nil_lt_iff left.data
    have hright := not_byteKey_lt_nil right.data
    grind

/-- **What atoms are sorted by**: the hash, and then what is compared of the bytes. -/
def DiffAtom.key (ig : Bool) (atom : DiffAtom) : ℕ ×ₗ List ℕ :=
  toLex (atom.hash.toNat, byteKey (atom.text ig))

/-- The comparison `qsort` is given agrees with the order of the keys. -/
theorem diffAtomsCompar_ne_gt_iff :
    diffAtomsCompar ig a b ≠ .gt ↔ a.atom.key ig ≤ b.atom.key ig := by
  rw [← not_lt, not_iff_not, DiffAtom.key, DiffAtom.key, Prod.Lex.toLex_lt_toLex,
    ← diffAtomCmp_eq_gt_iff, diffAtomsCompar, UInt32.toNat_inj]
  show _ ↔ b.atom.hash < a.atom.hash ∨ _
  split
  · rename_i hlt
    refine iff_of_false (fun h => (nomatch h)) ?_
    rintro (hgt | ⟨heq, -⟩)
    · exact UInt32.lt_asymm hlt hgt
    · exact UInt32.lt_irrefl _ (heq ▸ hlt)
  rename_i hnlt
  split
  · rename_i hgt
    exact iff_of_true rfl (Or.inl hgt)
  · rename_i hngt
    rw [or_iff_right hngt, and_iff_right
      (UInt32.le_antisymm (UInt32.not_lt.mp hnlt) (UInt32.not_lt.mp hngt))]

/-- **Atoms are the same** exactly if they are equal for the sort. -/
theorem diffAtomSame_iff_key {left right : DiffAtom} :
    diffAtomSame ig left right = true ↔ left.key ig = right.key ig := by
  rw [diffAtomSame, decide_eq_true_iff, diffAtomCmp_eq_iff, DiffAtom.key, DiffAtom.key,
    toLex_inj, Prod.mk.injEq, UInt32.toNat_inj, byteKey_injective.eq_iff]

/-- After sorting, the keys of the atoms ascend. -/
theorem pairwise_diffAtomsSort (ig : Bool) (atoms : List PlacedAtom) :
    (diffAtomsSort ig atoms).Pairwise (fun a b => a.atom.key ig ≤ b.atom.key ig) := by
  have htotal : Std.Total (fun a b : PlacedAtom => diffAtomsCompar ig a b ≠ .gt) :=
    ⟨fun a b => by
      rw [diffAtomsCompar_ne_gt_iff, diffAtomsCompar_ne_gt_iff]
      exact le_total _ _⟩
  have htrans : IsTrans PlacedAtom (fun a b => diffAtomsCompar ig a b ≠ .gt) :=
    ⟨fun a b c hab hbc => by
      rw [diffAtomsCompar_ne_gt_iff] at hab hbc ⊢
      exact hab.trans hbc⟩
  refine (List.pairwise_insertionSort _ atoms).imp fun h => ?_
  exact diffAtomsCompar_ne_gt_iff.mp h

/-! ## Runs -/

/-- In what is sorted, the atoms that are the same as the first one come before all others. -/
theorem not_same_of_mem_dropWhile
    (hsorted : (a :: rest).Pairwise (fun a b => a.atom.key ig ≤ b.atom.key ig))
    (hb : b ∈ rest.dropWhile (fun b => diffAtomSame ig a.atom b.atom)) :
    diffAtomSame ig a.atom b.atom = false := by
  obtain ⟨hle, hrest⟩ := List.pairwise_cons.mp hsorted
  have hsub := List.dropWhile_sublist (l := rest) (fun b => diffAtomSame ig a.atom b.atom)
  have hhead := List.head?_dropWhile_not (fun b => diffAtomSame ig a.atom b.atom) rest
  cases hdrop : rest.dropWhile (fun b => diffAtomSame ig a.atom b.atom) with
  | nil =>
    rw [hdrop] at hb
    exact absurd hb List.not_mem_nil
  | cons d ds =>
    rw [hdrop] at hb hsub hhead
    have hd : diffAtomSame ig a.atom d.atom = false := hhead
    rcases List.mem_cons.mp hb with rfl | hb
    · exact hd
    · refine Bool.eq_false_iff.mpr fun hsame => Bool.eq_false_iff.mp hd ?_
      rw [diffAtomSame_iff_key] at hsame ⊢
      refine le_antisymm (hle d (hsub.subset List.mem_cons_self)) ?_
      rw [hsame]
      exact (List.pairwise_cons.mp (hrest.sublist hsub)).1 b hb

/-- **A run is found as a whole**, in what is sorted: what is in it is the same as its first
atom, and what is behind it is not. -/
theorem sameRun_spec (hsorted : (a :: rest).Pairwise (fun a b => a.atom.key ig ≤ b.atom.key ig)) :
    (∀ b ∈ sameRun ig a rest, diffAtomSame ig a.atom b.atom = true)
      ∧ ∀ b ∈ rest.drop (sameRun ig a rest).length, diffAtomSame ig a.atom b.atom = false := by
  have hsplit := List.takeWhile_append_dropWhile
    (p := fun b => diffAtomSame ig a.atom b.atom) (l := rest)
  have hbehind := fun b hb => @not_same_of_mem_dropWhile a b rest ig hsorted hb
  have hrun := fun b hb =>
    @List.mem_takeWhile_imp _ (fun b => diffAtomSame ig a.atom b.atom) rest b hb
  generalize rest.takeWhile (fun b => diffAtomSame ig a.atom b.atom) = run at hsplit hrun
  generalize rest.dropWhile (fun b => diffAtomSame ig a.atom b.atom) = behind at hsplit hbehind
  have heq : sameRun ig a rest = run := by
    have hhash : ∀ b ∈ run, decide (a.atom.hash = b.atom.hash) = true := fun b hb => by
      have h := hrun b hb
      rw [diffAtomSame, decide_eq_true_iff] at h
      exact decide_eq_true h.1
    have hnot : ∀ b ∈ behind.takeWhile (fun b => a.atom.hash = b.atom.hash),
        (decide ¬diffAtomSame ig a.atom b.atom) = true := fun b hb => by
      rw [hbehind b (List.takeWhile_sublist _ |>.subset hb)]
      rfl
    unfold sameRun
    rw [← hsplit, List.takeWhile_append_of_pos hhash, List.rdropWhile, List.reverse_append,
      List.dropWhile_append_of_pos (fun b hb => hnot b (List.mem_reverse.mp hb)),
      ← List.rdropWhile, List.rdropWhile_eq_self_iff]
    intro hne hlast
    rw [hrun _ (List.getLast_mem hne)] at hlast
    exact absurd hlast (by decide)
  refine ⟨fun b hb => hrun b (heq ▸ hb), fun b hb => hbehind b ?_⟩
  rw [heq, ← hsplit, List.drop_left] at hb
  exact hb

/-- **What is left of the sorted atoms**: with an atom, all that are the same. -/
structure Unmarked (ig : Bool) (all atoms : List PlacedAtom) : Prop where
  sorted : atoms.Pairwise (fun a b => a.atom.key ig ≤ b.atom.key ig)
  mem : ∀ a ∈ atoms, a ∈ all
  closed : ∀ a ∈ atoms, ∀ c ∈ all, diffAtomSame ig a.atom c.atom = true → c ∈ atoms

/-- What is not in the run of an atom is behind it. -/
theorem sameRun_append_drop (ig : Bool) (a : PlacedAtom) (rest : List PlacedAtom) :
    sameRun ig a rest ++ rest.drop (sameRun ig a rest).length = rest := by
  have hprefix : sameRun ig a rest <+: rest :=
    (List.rdropWhile_prefix _ _).trans (List.takeWhile_prefix _)
  conv_rhs => rw [← List.take_append_drop (sameRun ig a rest).length rest]
  rw [← List.prefix_iff_eq_take.mp hprefix]

/-- A run is left out as a whole. -/
theorem Unmarked.drop (h : Unmarked ig all (a :: rest)) :
    Unmarked ig all (rest.drop (sameRun ig a rest).length) := by
  obtain ⟨hrun, hbehind⟩ := sameRun_spec h.sorted
  have hsplit := sameRun_append_drop ig a rest
  refine ⟨(List.pairwise_cons.mp h.sorted).2.sublist (List.drop_sublist _ _),
    fun c hc => h.mem c (List.mem_cons_of_mem _ (List.mem_of_mem_drop hc)),
    fun c hc d hd hsame => ?_⟩
  have hnot := Bool.eq_false_iff.mp (hbehind c hc)
  rw [Ne, diffAtomSame_iff_key] at hnot
  rw [diffAtomSame_iff_key] at hsame
  have hmem := h.closed c (List.mem_cons_of_mem _ (List.mem_of_mem_drop hc)) d hd
    (diffAtomSame_iff_key.mpr hsame)
  rcases List.mem_cons.mp hmem with rfl | hmem
  · exact absurd hsame.symm hnot
  rw [← hsplit] at hmem
  rcases List.mem_append.mp hmem with hmem | hmem
  · exact absurd ((diffAtomSame_iff_key.mp (hrun d hmem)).trans hsame.symm) hnot
  · exact hmem

end Got

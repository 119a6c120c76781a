import Mathlib.Data.List.Basic
import Mathlib.Algebra.GroupWithZero.Nat
import Mathlib.Algebra.BigOperators.Group.List.Basic

/-!
# Copy programs

A copy program builds one list from another: its instructions copy a range
of the base or insert given elements. A *patch* is a copy program with two
declared sizes, that of the base it was made for and that of its result,
and it applies to a base exactly if the declarations are true and every copy
stays inside the base.

A program can also be run on a memory, a function from positions to
elements that is total where a list ends. The two runs agree where the
program stays in bounds (`run_eq_runList`), and that is all that separates
them: out of bounds the memory still answers.

Patches are chained by applying each to the result of the one before.
Whether a chain applies does not depend on the elements at all but only on
the sizes (`applyAll_isSome_iff`).
-/

namespace CopyProgram

variable {α : Type*}

/-- An instruction of a copy program. -/
inductive Instr (α : Type*)
  /-- Copy `len` elements of the base from position `off` on. -/
  | copy (off len : ℕ)
  /-- Insert the given elements. -/
  | insert (data : List α)

namespace Instr

/-- How far into the base an instruction reaches. -/
def reach : Instr α → ℕ
  | copy off len => off + len
  | insert _ => 0

/-- How many elements an instruction appends to the result. -/
def size : Instr α → ℕ
  | copy _ len => len
  | insert data => data.length

/-- The elements an instruction appends, read from a memory. -/
def run (mem : ℕ → α) : Instr α → List α
  | copy off len => (List.range len).map (fun i => mem (off + i))
  | insert data => data

/-- The elements an instruction appends, read from a list. -/
def runList (base : List α) : Instr α → List α
  | copy off len => (base.drop off).take len
  | insert data => data

@[simp] theorem length_run (mem : ℕ → α) (i : Instr α) : (i.run mem).length = i.size := by
  cases i <;> simp [run, size]

/-- An instruction gives as many elements as its size says. -/
theorem length_runList {base : List α} {i : Instr α} (h : i.reach ≤ base.length) :
    (i.runList base).length = i.size := by
  cases i with
  | copy off len =>
    have : off + len ≤ base.length := h
    simp only [runList, size, List.length_take, List.length_drop]
    omega
  | insert data => rfl

end Instr

/-- The result of a program on a memory. -/
def run (mem : ℕ → α) (is : List (Instr α)) : List α := is.flatMap (Instr.run mem)

/-- The result of a program on a list. -/
def runList (base : List α) (is : List (Instr α)) : List α := is.flatMap (Instr.runList base)

/-- The number of elements a program produces. -/
def size (is : List (Instr α)) : ℕ := (is.map Instr.size).sum

/-- **A program stays in bounds** if no instruction reaches past `n`. -/
def InBounds (n : ℕ) (is : List (Instr α)) : Prop := ∀ i ∈ is, i.reach ≤ n

instance (n : ℕ) (is : List (Instr α)) : Decidable (InBounds n is) :=
  inferInstanceAs (Decidable (∀ i ∈ is, i.reach ≤ n))

@[simp] theorem run_cons (mem : ℕ → α) (i : Instr α) (is : List (Instr α)) :
    run mem (i :: is) = i.run mem ++ run mem is := rfl

@[simp] theorem size_cons (i : Instr α) (is : List (Instr α)) :
    size (i :: is) = i.size + size is := rfl

@[simp] theorem inBounds_nil (n : ℕ) : InBounds n ([] : List (Instr α)) := by
  simp [InBounds]

@[simp] theorem inBounds_cons (n : ℕ) (i : Instr α) (is : List (Instr α)) :
    InBounds n (i :: is) ↔ i.reach ≤ n ∧ InBounds n is := by
  simp [InBounds]

@[simp] theorem length_run (mem : ℕ → α) (is : List (Instr α)) :
    (run mem is).length = size is := by
  induction is with
  | nil => rfl
  | cons i is ih => rw [run_cons, List.length_append, Instr.length_run, ih, size_cons]

theorem InBounds.mono {m n : ℕ} {is : List (Instr α)} (h : InBounds m is) (hmn : m ≤ n) :
    InBounds n is := fun i hi => Nat.le_trans (h i hi) hmn

/-- A memory holds a list if it has the list's elements at the list's
positions. -/
def Holds (mem : ℕ → α) (base : List α) : Prop := ∀ i x, base[i]? = some x → mem i = x

/-- Copying a range that lies inside the list does not depend on what the
memory has behind it. -/
theorem map_range_eq_take_drop {mem : ℕ → α} {base : List α} (h : Holds mem base)
    {off len : ℕ} (hb : off + len ≤ base.length) :
    (List.range len).map (fun i => mem (off + i)) = (base.drop off).take len := by
  refine List.ext_getElem ?_ (fun i h₁ h₂ => ?_)
  · rw [List.length_map, List.length_range, List.length_take, List.length_drop]
    omega
  · rw [List.length_map, List.length_range] at h₁
    rw [List.getElem_map, List.getElem_range, List.getElem_take, List.getElem_drop]
    exact h _ _ (List.getElem?_eq_getElem (by omega))

/-- **In bounds, a memory that holds the base does as well as the base.** -/
theorem run_eq_runList {mem : ℕ → α} {base : List α} (h : Holds mem base)
    {is : List (Instr α)} (hb : InBounds base.length is) : run mem is = runList base is := by
  unfold run runList
  induction is with
  | nil => rfl
  | cons i is ih =>
    rw [inBounds_cons] at hb
    rw [List.flatMap_cons, List.flatMap_cons, ih hb.2]
    congr 1
    cases i with
    | copy off len => exact map_range_eq_take_drop h hb.1
    | insert data => rfl

/-- A program in bounds of a list produces as much from it as it says. -/
theorem length_runList {base : List α} {is : List (Instr α)} (hb : InBounds base.length is) :
    (runList base is).length = size is := by
  induction is with
  | nil => rfl
  | cons i is ih =>
    rw [inBounds_cons] at hb
    have his : (is.flatMap (Instr.runList base)).length = size is := ih hb.2
    rw [runList, List.flatMap_cons, List.length_append, Instr.length_runList hb.1, his, size_cons]

/-! ## Programs one after the other -/

/-- Each program runs on the result of the one before. -/
def runAll (base : List α) (iss : List (List (Instr α))) : List α := iss.foldl runList base

/-- **Programs are feasible** one after the other if each stays in bounds of
the result of the one before. -/
def Feasible : ℕ → List (List (Instr α)) → Prop
  | _, [] => True
  | n, is :: iss => InBounds n is ∧ Feasible (size is) iss

/-- One more program. -/
theorem feasible_append_singleton {base : List α} {iss : List (List (Instr α))}
    {is : List (Instr α)} (h : Feasible base.length iss)
    (hb : InBounds (runAll base iss).length is) : Feasible base.length (iss ++ [is]) := by
  induction iss generalizing base with
  | nil => exact ⟨hb, trivial⟩
  | cons i iss ih =>
    refine ⟨h.1, ?_⟩
    rw [← length_runList h.1]
    exact ih (by rw [length_runList h.1]; exact h.2) hb

/-! ## Patches -/

/-- **A patch**: a copy program with the sizes it declares. -/
structure Patch (α : Type*) where
  /-- The declared size of the base. -/
  baseSize : ℕ
  /-- The declared size of the result. -/
  resultSize : ℕ
  /-- The program. -/
  instrs : List (Instr α)

/-- **A patch fits a base of `n` elements**: both declared sizes are true
and no copy reaches past the base. -/
structure Patch.Fits (p : Patch α) (n : ℕ) : Prop where
  baseSize_eq : p.baseSize = n
  inBounds : InBounds n p.instrs
  resultSize_eq : p.resultSize = size p.instrs

instance (p : Patch α) (n : ℕ) : Decidable (p.Fits n) :=
  decidable_of_iff (p.baseSize = n ∧ InBounds n p.instrs ∧ p.resultSize = size p.instrs)
    ⟨fun h => ⟨h.1, h.2.1, h.2.2⟩, fun h => ⟨h.1, h.2, h.3⟩⟩

/-- The reference meaning of a patch: its program's result, on the bases it
fits. -/
def Patch.apply (p : Patch α) (base : List α) : Option (List α) :=
  if p.Fits base.length then some (runList base p.instrs) else none

/-- **The left fold of the reference application over a chain of
patches.** -/
def applyAll (base : List α) : List (Patch α) → Option (List α)
  | [] => some base
  | p :: ps => (p.apply base).bind (fun out => applyAll out ps)

/-- **The sizes along a chain agree**: each patch fits the size the patch
before it declares as its result. -/
def Chained : ℕ → List (Patch α) → Prop
  | _, [] => True
  | n, p :: ps => p.Fits n ∧ Chained p.resultSize ps

instance Chained.decidable : (n : ℕ) → (ps : List (Patch α)) → Decidable (Chained n ps)
  | _, [] => inferInstanceAs (Decidable True)
  | n, p :: ps =>
    have := Chained.decidable p.resultSize ps
    inferInstanceAs (Decidable (p.Fits n ∧ Chained p.resultSize ps))

/-- A patch is applied to a base that it fits, and to no other. -/
theorem Patch.apply_eq_some_iff {p : Patch α} {base out : List α} :
    p.apply base = some out ↔ p.Fits base.length ∧ runList base p.instrs = out := by
  unfold Patch.apply
  split
  · next h => simp [h]
  · next h => simp [h]

/-- A chain whose sizes agree is feasible. -/
theorem Chained.feasible {n : ℕ} {ps : List (Patch α)} (h : Chained n ps) :
    Feasible n (ps.map Patch.instrs) := by
  induction ps generalizing n with
  | nil => trivial
  | cons p ps ih =>
    refine ⟨h.1.inBounds, ?_⟩
    rw [← h.1.resultSize_eq]
    exact ih h.2

/-- **Where the sizes agree, the fold is what the programs make.** -/
theorem applyAll_eq_runAll {base : List α} {ps : List (Patch α)} (h : Chained base.length ps) :
    applyAll base ps = some (runAll base (ps.map Patch.instrs)) := by
  induction ps generalizing base with
  | nil => rfl
  | cons p ps ih =>
    have hlen : (runList base p.instrs).length = p.resultSize := by
      rw [length_runList h.1.inBounds, h.1.resultSize_eq]
    rw [applyAll, Patch.apply_eq_some_iff.mpr ⟨h.1, rfl⟩]
    exact ih (by rw [hlen]; exact h.2)

/-- **Whether a chain applies is a matter of its sizes.** -/
theorem applyAll_isSome_iff (base : List α) (ps : List (Patch α)) :
    (∃ out, applyAll base ps = some out) ↔ Chained base.length ps := by
  refine ⟨fun h => ?_, fun h => ⟨_, applyAll_eq_runAll h⟩⟩
  obtain ⟨out, h⟩ := h
  induction ps generalizing base with
  | nil => trivial
  | cons p ps ih =>
    obtain ⟨out', hp, h⟩ := Option.bind_eq_some_iff.mp h
    obtain ⟨hf, rfl⟩ := Patch.apply_eq_some_iff.mp hp
    have := ih _ h
    rw [length_runList hf.inBounds, ← hf.resultSize_eq] at this
    exact ⟨hf, this⟩

end CopyProgram

import Mathlib.Data.Nat.Basic
import Mathlib.Data.Option.Basic
import Mathlib.Data.Set.Finite.Basic
import Mathlib.Order.Preorder.Finite

/-!
# Following links

A thing may name another thing, which may name a third: `next` is the
partial function from a thing to the one it names. How many links can be
followed from a thing is all that matters to code that follows them, and a
cycle is a place from which any number can be followed. Where only so many things are named
at all, it is the only such place (`cyclic_iff`).
-/

namespace Links

variable {α : Type*}

/-- Where `n` links lead. -/
def follow (next : α → Option α) : ℕ → α → Option α
  | 0, a => some a
  | n + 1, a => (next a).bind (follow next n)

/-- **At least `n` links** can be followed. -/
def HasLinks (next : α → Option α) (n : ℕ) (a : α) : Prop := (follow next n a).isSome

variable {next : α → Option α}

@[simp] theorem hasLinks_zero (a : α) : HasLinks next 0 a := rfl

theorem hasLinks_succ_of_some {a b : α} (h : next a = some b) (n : ℕ) :
    HasLinks next (n + 1) a ↔ HasLinks next n b := by
  show ((next a).bind (follow next n)).isSome ↔ (follow next n b).isSome
  rw [h, Option.bind_some]

theorem not_hasLinks_succ_of_none {a : α} (h : next a = none) (n : ℕ) :
    ¬HasLinks next (n + 1) a := by
  show ¬((next a).bind (follow next n)).isSome
  rw [h, Option.bind_none]
  exact Bool.false_ne_true

/-- Whoever can follow more links can follow fewer. -/
theorem HasLinks.mono {m n : ℕ} {a : α} (h : HasLinks next n a) (hmn : m ≤ n) :
    HasLinks next m a := by
  induction m generalizing n a with
  | zero => exact hasLinks_zero a
  | succ m ih =>
    obtain ⟨n, rfl⟩ : ∃ k, n = k + 1 := ⟨n - 1, by omega⟩
    cases hb : next a with
    | none => exact absurd h (not_hasLinks_succ_of_none hb n)
    | some b =>
      rw [hasLinks_succ_of_some hb] at h ⊢
      exact ih h (by omega)

/-- **From a thing that names itself any number of links can be
followed.** -/
theorem hasLinks_of_self {a : α} (h : next a = some a) (n : ℕ) : HasLinks next n a := by
  induction n with
  | zero => exact hasLinks_zero a
  | succ n ih => exact (hasLinks_succ_of_some h n).mpr ih

/-! ## Cycles -/

/-- **A cycle**: something is reached again. -/
def Cyclic (next : α → Option α) (a : α) : Prop :=
  ∃ i j b, i < j ∧ follow next i a = some b ∧ follow next j a = some b

/-- Following so many links and then so many more is following all of them. -/
theorem follow_add (m n : ℕ) (a : α) :
    follow next (m + n) a = (follow next m a).bind (follow next n) := by
  induction m generalizing a with
  | zero => rw [Nat.zero_add, follow, Option.bind_some]
  | succ m ih =>
    rw [Nat.succ_add, follow, follow, Option.bind_assoc]
    exact congrArg _ (funext ih)

/-- Where a thing is reached from itself, it is reached again and again. -/
theorem follow_mul {b : α} {p : ℕ} (h : follow next p b = some b) (k : ℕ) :
    follow next (p * k) b = some b := by
  induction k with
  | zero => rfl
  | succ k ih => rw [Nat.mul_succ, follow_add, ih, Option.bind_some, h]

/-- **Where only so many things are named, a chain without an end is a cycle.** -/
theorem cyclic_iff (hfinite : {b | ∃ a, next a = some b}.Finite) {a : α} :
    Cyclic next a ↔ ∀ n, HasLinks next n a := by
  constructor
  · rintro ⟨i, j, b, hij, hi, hj⟩ n
    have hperiod : follow next (j - i) b = some b := by
      have h := @follow_add _ next i (j - i) a
      rwa [Nat.add_sub_cancel' hij.le, hj, hi, Option.bind_some, eq_comm] at h
    have hlong : HasLinks next (i + (j - i) * n) a := by
      rw [HasLinks, follow_add, hi, Option.bind_some, follow_mul hperiod]
      rfl
    exact hlong.mono (le_trans (Nat.le_mul_of_pos_left n (Nat.sub_pos_of_lt hij))
      (Nat.le_add_left _ i))
  · intro h
    -- what is reached by one link at least has a name
    have hmem : ∀ n, follow next (n + 1) a ∈ some '' {b | ∃ a, next a = some b} := fun n => by
      obtain ⟨b, hb⟩ := Option.isSome_iff_exists.mp (h (n + 1))
      have hlast := hb
      rw [follow_add, Option.bind_eq_some_iff] at hlast
      obtain ⟨c, -, hc⟩ := hlast
      rw [follow, Option.bind_eq_some_iff] at hc
      obtain ⟨b', hb', heq⟩ := hc
      rw [hb, ← heq]
      exact ⟨b', ⟨c, hb'⟩, rfl⟩
    obtain ⟨i, j, hij, heq⟩ :=
      Set.Finite.exists_lt_map_eq_of_forall_mem hmem (hfinite.image some)
    obtain ⟨b, hb⟩ := Option.isSome_iff_exists.mp (h (i + 1))
    exact ⟨i + 1, j + 1, b, Nat.succ_lt_succ hij, hb, heq ▸ hb⟩

end Links

import Mathlib.Data.UInt
import Mathlib.Tactic.Ring

/-!
# Numbers in groups of seven bits

A number is written in groups of seven bits, the lowest first, and put together
again by shifting each group to its place. If the shift is one of 32 bits, then
what is shifted out of an `int` is lost, and bit 31 becomes the sign of what is
read (`toNat_signExtend_int`). A number which does not reach the sign is read as
it was written (`toNat_placeGroups`).
-/

namespace Groups

/-- The lowest group of a number, shifted to a place as an `int`. A shift by 32 or
more is taken modulo 32. -/
def placeGroup (place n : ℕ) : BitVec 32 := BitVec.ofNat 32 (n % 128) <<< (place % 32)

/-- **The groups of a number**, `k` of them, from a place on. -/
def placeGroups : ℕ → ℕ → ℕ → BitVec 32
  | 0, _, _ => 0#32
  | k + 1, place, n => placeGroup place n ||| placeGroups k (place + 7) (n / 128)

theorem placeGroups_zero (k place : ℕ) : placeGroups k place 0 = 0#32 := by
  induction k generalizing place with
  | zero => rfl
  | succ k ih =>
    rw [placeGroups, Nat.zero_div, ih, placeGroup, Nat.zero_mod]
    simp

/-- Of a number below 128 there is one group. -/
theorem placeGroups_of_lt {n : ℕ} (h : n < 128) (k place : ℕ) :
    placeGroups (k + 1) place n = placeGroup place n := by
  rw [placeGroups, Nat.div_eq_of_lt h, placeGroups_zero, BitVec.or_zero]

/-- The rest of a number, at the next place, is no larger than the number. -/
theorem rest_le (place n : ℕ) : n / 128 * 2 ^ (place + 7) ≤ n * 2 ^ place := by
  have hpow : n / 128 * 2 ^ (place + 7) = n / 128 * 128 * 2 ^ place := by ring
  rw [hpow]
  exact Nat.mul_le_mul_right _ (Nat.div_mul_le_self n 128)

/-- A group that does not reach the sign is a number at its place. -/
theorem toNat_placeGroup {place n : ℕ} (h : n * 2 ^ place < 2 ^ 31) :
    (placeGroup place n).toNat = n % 128 * 2 ^ place := by
  rcases Nat.eq_zero_or_pos n with rfl | hpos
  · simp [placeGroup]
  · have hplace : place < 31 :=
      (Nat.pow_lt_pow_iff_right (by decide : 1 < 2)).mp
        ((Nat.le_mul_of_pos_left _ hpos).trans_lt h)
    have hle : n % 128 * 2 ^ place ≤ n * 2 ^ place := Nat.mul_le_mul_right _ (Nat.mod_le n 128)
    have hn : n % 128 < 2 ^ 32 := by omega
    rw [placeGroup, BitVec.toNat_shiftLeft, BitVec.toNat_ofNat,
      Nat.mod_eq_of_lt (show place < 32 by omega), Nat.shiftLeft_eq, Nat.mod_eq_of_lt hn,
      Nat.mod_eq_of_lt (by omega)]

/-- **Groups that do not reach the sign make up the number.** -/
theorem toNat_placeGroups {k place n : ℕ} (hk : n < 128 ^ k) (h : n * 2 ^ place < 2 ^ 31) :
    (placeGroups k place n).toNat = n * 2 ^ place := by
  induction k generalizing place n with
  | zero =>
    obtain rfl : n = 0 := Nat.lt_one_iff.mp hk
    rw [Nat.zero_mul]
    rfl
  | succ k ih =>
    have hrest : n / 128 < 128 ^ k := Nat.div_lt_of_lt_mul (Nat.pow_succ' ▸ hk)
    have hlow : n % 128 * 2 ^ place < 2 ^ (place + 7) := by
      rw [Nat.pow_add, Nat.mul_comm (2 ^ place)]
      exact Nat.mul_lt_mul_of_pos_right (Nat.mod_lt n (by decide)) (Nat.two_pow_pos _)
    rw [placeGroups, BitVec.toNat_or, toNat_placeGroup h, ih hrest ((rest_le place n).trans_lt h),
      Nat.or_comm, Nat.mul_comm (n / 128), ← Nat.two_pow_add_eq_or_of_lt hlow]
    have hsplit : n * 2 ^ place = (128 * (n / 128) + n % 128) * 2 ^ place := by
      rw [Nat.div_add_mod]
    rw [hsplit]
    ring

/-- The next groups only add bits. -/
theorem placeGroups_le (k place n : ℕ) :
    (placeGroups k (place + 7) (n / 128)).toNat ≤ (placeGroups (k + 1) place n).toNat := by
  rw [placeGroups, BitVec.toNat_or]
  exact Nat.right_le_or

/-! ## The sign -/

theorem or_signExtend (x y : BitVec 32) (s : UInt64) :
    s ||| ⟨x.signExtend 64⟩ ||| ⟨y.signExtend 64⟩ = s ||| ⟨(x ||| y).signExtend 64⟩ := by
  rw [BitVec.signExtend_or, UInt64.or_assoc]
  rfl

/-- A number of 32 bits, as one of 64 bits. -/
theorem toNat_signExtend_int (x : BitVec 32) :
    (x.signExtend 64).toNat = if x.toNat < 2 ^ 31
    then x.toNat else x.toNat + (2 ^ 64 - 2 ^ 32) := by
  have hlt := x.isLt
  have hmsb : x.msb = decide (2 ^ 31 ≤ x.toNat) := BitVec.msb_eq_decide x
  rw [BitVec.toNat_signExtend, BitVec.toNat_setWidth, Nat.mod_eq_of_lt (by omega), hmsb]
  by_cases h : x.toNat < 2 ^ 31
  · rw [if_pos h, decide_eq_false (by omega)]
    rfl
  · rw [if_neg h, decide_eq_true (by omega)]
    rfl

end Groups

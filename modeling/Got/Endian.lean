import Got.Lib.Records
import Got.Memory
import Mathlib.Algebra.Order.Ring.Nat
import Mathlib.Tactic.Ring

/-!
# Numbers in a file

The binary formats of the source store numbers with the highest byte first.
`bigEndian` writes a number in a given count of bytes, and `idKey` reads one
of any length. The fields themselves have fixed widths, and are named after
the functions of `endian.h`.
-/

namespace Got

open Records

/-- The bytes of an id as a number, the first byte being the highest. -/
def idKey : Bytes → ℕ
  | [] => 0
  | a :: as => a.toNat * 256 ^ as.length + idKey as

/-- The number behind a string of bytes fits its length. -/
theorem idKey_lt (b : Bytes) : idKey b < 256 ^ b.length := by
  induction b with
  | nil => exact Nat.one_pos
  | cons a as ih =>
    rw [idKey, List.length_cons, Nat.pow_succ']
    have ha : (a.toNat + 1) * 256 ^ as.length ≤ 256 * 256 ^ as.length :=
      Nat.mul_le_mul_right _ a.toNat_lt
    rw [Nat.add_mul, Nat.one_mul] at ha
    omega

/-- The lowest `w` bytes of a number, the highest of them first. -/
def bigEndian : ℕ → ℕ → Bytes
  | 0, _ => []
  | w + 1, n => (n / 256 ^ w).toUInt8 :: bigEndian w n

@[simp] theorem length_bigEndian (w n : ℕ) : (bigEndian w n).length = w := by
  induction w with
  | zero => rfl
  | succ w ih => rw [bigEndian, List.length_cons, ih]

/-- **Reading a number undoes writing it.** -/
theorem idKey_bigEndian (w n : ℕ) : idKey (bigEndian w n) = n % 256 ^ w := by
  induction w with
  | zero => rw [Nat.pow_zero, Nat.mod_one]; rfl
  | succ w ih =>
    have hbyte : (n / 256 ^ w).toUInt8.toNat = n / 256 ^ w % 256 := rfl
    rw [bigEndian, idKey, length_bigEndian, ih, hbyte, Nat.pow_succ, Nat.mod_mul]
    ring

/-- A number that is written is the one modulo what its bytes can say. -/
theorem bigEndian_add_mul (w n k : ℕ) : bigEndian w (n + 256 ^ w * k) = bigEndian w n := by
  induction w generalizing k with
  | zero => rfl
  | succ w ih =>
    have hpos : 0 < 256 ^ w := Nat.pow_pos (by decide)
    have hdiv : (n + 256 ^ w * (256 * k)) / 256 ^ w = n / 256 ^ w + 256 * k :=
      Nat.add_mul_div_left n (256 * k) hpos
    have hbyte : (n / 256 ^ w + 256 * k).toUInt8 = (n / 256 ^ w).toUInt8 :=
      UInt8.toNat_inj.mp (Nat.add_mul_mod_self_left _ _ _)
    rw [bigEndian, bigEndian, Nat.pow_succ, Nat.mul_assoc, hdiv, hbyte, ih]

/-- **Writing a number undoes reading it.** -/
theorem bigEndian_idKey (b : Bytes) : bigEndian b.length (idKey b) = b := by
  induction b with
  | nil => rfl
  | cons a as ih =>
    have hpos : 0 < 256 ^ as.length := Nat.pow_pos (by decide)
    have hdiv : (a.toNat * 256 ^ as.length + idKey as) / 256 ^ as.length = a.toNat := by
      rw [Nat.add_comm, Nat.add_mul_div_right _ _ hpos, Nat.div_eq_of_lt (idKey_lt as),
        Nat.zero_add]
    have hbyte : a.toNat.toUInt8 = a := UInt8.ofNat_toNat
    rw [List.length_cons, bigEndian, idKey, hdiv, hbyte, Nat.add_comm, Nat.mul_comm,
      bigEndian_add_mul, ih]

/-! ## Fields -/

/-- `htobe16`, `htobe32` and `htobe64`: a machine word as bytes, the highest first. -/
def htobe16 (n : UInt16) : Bytes := bigEndian 2 n.toNat
def htobe32 (n : UInt32) : Bytes := bigEndian 4 n.toNat
def htobe64 (n : UInt64) : Bytes := bigEndian 8 n.toNat

/-- `be16toh`, `be32toh` and `be64toh`: bytes as a machine word. -/
def be16toh (b : Bytes) : UInt16 := (idKey b).toUInt16
def be32toh (b : Bytes) : UInt32 := (idKey b).toUInt32
def be64toh (b : Bytes) : UInt64 := (idKey b).toUInt64

/-- Two bytes are read back as the word that was written. -/
theorem record_be16 : Record 2 htobe16 be16toh where
  length_enc n := length_bigEndian 2 n.toNat
  dec_enc n := by
    rw [be16toh, htobe16, idKey_bigEndian,
      Nat.mod_eq_of_lt (show n.toNat < 256 ^ 2 from n.toNat_lt)]
    exact UInt16.ofNat_toNat
  enc_dec b hb := by
    have hlt : idKey b < 2 ^ 16 := (idKey_lt b).trans_eq (by rw [hb]; rfl)
    have hn : (be16toh b).toNat = idKey b := Nat.mod_eq_of_lt hlt
    rw [htobe16, hn, ← hb, bigEndian_idKey]

/-- Four bytes are read back as the word that was written. -/
theorem record_be32 : Record 4 htobe32 be32toh where
  length_enc n := length_bigEndian 4 n.toNat
  dec_enc n := by
    rw [be32toh, htobe32, idKey_bigEndian,
      Nat.mod_eq_of_lt (show n.toNat < 256 ^ 4 from n.toNat_lt)]
    exact UInt32.ofNat_toNat
  enc_dec b hb := by
    have hlt : idKey b < 2 ^ 32 := (idKey_lt b).trans_eq (by rw [hb]; rfl)
    have hn : (be32toh b).toNat = idKey b := Nat.mod_eq_of_lt hlt
    rw [htobe32, hn, ← hb, bigEndian_idKey]

/-- Eight bytes are read back as the word that was written. -/
theorem record_be64 : Record 8 htobe64 be64toh where
  length_enc n := length_bigEndian 8 n.toNat
  dec_enc n := by
    rw [be64toh, htobe64, idKey_bigEndian,
      Nat.mod_eq_of_lt (show n.toNat < 256 ^ 8 from n.toNat_lt)]
    exact UInt64.ofNat_toNat
  enc_dec b hb := by
    have hlt : idKey b < 2 ^ 64 := (idKey_lt b).trans_eq (by rw [hb]; rfl)
    have hn : (be64toh b).toNat = idKey b := Nat.mod_eq_of_lt hlt
    rw [htobe64, hn, ← hb, bigEndian_idKey]

end Got

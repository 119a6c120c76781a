import Mathlib.Data.UInt

/-!
# Bytes and memory

The data every parser of the source works on: strings of bytes, and blocks
of memory. A block is a function from positions to bytes. What lies behind
the bytes that were written to a block is still something, and code that
reads too far reads it.

Integer expressions of C that do not mean what they seem to mean are here as
well, under their C meaning.
-/

namespace Got

/-- A string of bytes. -/
abbrev Bytes := List UInt8

/-- **A block of memory**, by position. Positions that were never written
hold whatever the allocator left there. -/
abbrev Block := ℕ → UInt8

/-- The block after `data` was written at its start. -/
def Block.write (b : Block) (data : Bytes) : Block := fun i => data.getD i (b i)

/-- `len` bytes of a block from `off` on, as `memcpy` reads them. -/
def Block.read (b : Block) (off len : ℕ) : Bytes := (List.range len).map (fun i => b (off + i))

/-- Compare two strings of bytes of the same length. -/
def memcmp : Bytes → Bytes → Ordering
  | a :: as, b :: bs => if a < b then .lt else if b < a then .gt else memcmp as bs
  | _, _ => .eq

/-- Strings of the same length compare equal if they are. -/
theorem memcmp_eq_iff : {left right : Bytes} → left.length = right.length →
    (memcmp left right = .eq ↔ left = right)
  | [], [], _ => iff_of_true rfl rfl
  | a :: as, b :: bs, h => by
    have ih := memcmp_eq_iff (Nat.succ.inj h)
    rw [memcmp, List.cons_eq_cons, ← ih]
    split
    · next hlt => exact iff_of_false nofun fun heq => UInt8.lt_irrefl b (heq.1 ▸ hlt)
    · split
      · next hlt => exact iff_of_false nofun fun heq => UInt8.lt_irrefl b (heq.1 ▸ hlt)
      · next h1 h2 =>
        have heq : a = b := UInt8.le_antisymm (UInt8.not_lt.mp h2) (UInt8.not_lt.mp h1)
        exact (and_iff_right heq).symm

/-- **A byte shifted left by `n`**, as a 64-bit number. The shift is one of
an `int`, so its value is truncated to 32 bits, and sign-extended where it is
widened. A count of 32 or more, which C leaves undefined, is taken modulo 32
as the shift instruction takes it. -/
def shiftByte (b : UInt8) (n : ℕ) : UInt64 :=
  let v : BitVec 32 := b.toBitVec.zeroExtend 32
  ⟨(v <<< (n % 32)).signExtend 64⟩

end Got

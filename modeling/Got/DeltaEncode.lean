import Got.DeltaDecode
import Got.Lib.Groups

/-!
# Decoding undoes encoding

Git encodes a delta so that nothing is written that can be left out: a byte of
an offset or a length is there if it is not zero, and the length `0x10000`,
which takes three bytes, is taken for the one that is left out altogether.

What the code decodes is what was encoded (`decodeInstrs_encodeInstrs`), but
for the two sizes. `parse_size` shifts a byte by up to 63 bits and takes what
comes out for a number of 64 bits, but it shifts an `int`. So bits from 32 on
are lost, and bit 31 takes all higher ones with it. `decodesDelta_iff` says for
which sizes that makes no difference.
-/

namespace Got

open CopyProgram Groups

/-! ## Git's encoding -/

/-- A size in groups of seven bits, the lowest first. -/
def encodeSize (n : ℕ) : Bytes :=
  if n < 128 then [n.toUInt8] else (n % 128 + 128).toUInt8 :: encodeSize (n / 128)
termination_by n
decreasing_by omega

/-- A byte of an operand is left out if it is zero. -/
def operandByte (b : UInt8) : Bytes := if b = 0 then [] else [b]

/-- A flag is set if the byte it stands for is there. -/
def operandFlag (flag b : UInt8) : UInt8 := if b = 0 then 0 else flag

/-- The `k`-th byte of an operand. -/
def byteOf (n k : ℕ) : UInt8 := (n / 256 ^ k).toUInt8

/-- The length that is written, which is zero if the default is meant. -/
def writtenLen (len : ℕ) : ℕ := if len = GOT_DELTA_COPY_DEFAULT_LEN then 0 else len

/-- The first byte of a copy instruction. -/
def copyOpcode (off len : ℕ) : UInt8 :=
  GOT_DELTA_BASE_COPY
    ||| operandFlag GOT_DELTA_COPY_OFF1 (byteOf off 0)
    ||| operandFlag GOT_DELTA_COPY_OFF2 (byteOf off 1)
    ||| operandFlag GOT_DELTA_COPY_OFF3 (byteOf off 2)
    ||| operandFlag GOT_DELTA_COPY_OFF4 (byteOf off 3)
    ||| operandFlag GOT_DELTA_COPY_LEN1 (byteOf len 0)
    ||| operandFlag GOT_DELTA_COPY_LEN2 (byteOf len 1)
    ||| operandFlag GOT_DELTA_COPY_LEN3 (byteOf len 2)

/-- An instruction. -/
def encodeInstr : Instr UInt8 → Bytes
  | .copy off len =>
    let len := writtenLen len
    copyOpcode off len ::
      (operandByte (byteOf off 0) ++ (operandByte (byteOf off 1) ++ (operandByte (byteOf off 2)
        ++ (operandByte (byteOf off 3) ++ (operandByte (byteOf len 0)
          ++ (operandByte (byteOf len 1) ++ operandByte (byteOf len 2)))))))
  | .insert data => data.length.toUInt8 :: data

/-- **The delta stream** for a base of some size. -/
def encodeDelta (baseSize : ℕ) (is : List (Instr UInt8)) : Bytes :=
  encodeSize baseSize ++ (encodeSize (size is) ++ is.flatMap encodeInstr)

/-- The instructions that have an encoding, for a base of size `n`. -/
def Encodable (n : ℕ) : Instr UInt8 → Prop
  | .copy off len => off < 2 ^ 32 ∧ 1 ≤ len ∧ len ≤ 0xffffff ∧ off + len ≤ n
  | .insert data => 1 ≤ data.length ∧ data.length ≤ 127

/-! ## Operands -/

/-- The flags of an opcode are those of the bytes that are there. -/
theorem copyOpcode_flags (b₁ b₂ b₃ b₄ c₁ c₂ c₃ : UInt8) :
    let opcode := GOT_DELTA_BASE_COPY ||| operandFlag GOT_DELTA_COPY_OFF1 b₁
      ||| operandFlag GOT_DELTA_COPY_OFF2 b₂ ||| operandFlag GOT_DELTA_COPY_OFF3 b₃
      ||| operandFlag GOT_DELTA_COPY_OFF4 b₄ ||| operandFlag GOT_DELTA_COPY_LEN1 c₁
      ||| operandFlag GOT_DELTA_COPY_LEN2 c₂ ||| operandFlag GOT_DELTA_COPY_LEN3 c₃
    opcode &&& GOT_DELTA_BASE_COPY ≠ 0
      ∧ (opcode &&& GOT_DELTA_COPY_OFF1 = 0 ↔ b₁ = 0)
      ∧ (opcode &&& GOT_DELTA_COPY_OFF2 = 0 ↔ b₂ = 0)
      ∧ (opcode &&& GOT_DELTA_COPY_OFF3 = 0 ↔ b₃ = 0)
      ∧ (opcode &&& GOT_DELTA_COPY_OFF4 = 0 ↔ b₄ = 0)
      ∧ (opcode &&& GOT_DELTA_COPY_LEN1 = 0 ↔ c₁ = 0)
      ∧ (opcode &&& GOT_DELTA_COPY_LEN2 = 0 ↔ c₂ = 0)
      ∧ (opcode &&& GOT_DELTA_COPY_LEN3 = 0 ↔ c₃ = 0) := by
  have key : ∀ p₁ p₂ p₃ p₄ q₁ q₂ q₃ : Bool,
      let opcode := GOT_DELTA_BASE_COPY ||| (if p₁ then 0 else GOT_DELTA_COPY_OFF1)
        ||| (if p₂ then 0 else GOT_DELTA_COPY_OFF2) ||| (if p₃ then 0 else GOT_DELTA_COPY_OFF3)
        ||| (if p₄ then 0 else GOT_DELTA_COPY_OFF4) ||| (if q₁ then 0 else GOT_DELTA_COPY_LEN1)
        ||| (if q₂ then 0 else GOT_DELTA_COPY_LEN2) ||| (if q₃ then 0 else GOT_DELTA_COPY_LEN3)
      opcode &&& GOT_DELTA_BASE_COPY ≠ 0
        ∧ (opcode &&& GOT_DELTA_COPY_OFF1 = 0 ↔ p₁ = true)
        ∧ (opcode &&& GOT_DELTA_COPY_OFF2 = 0 ↔ p₂ = true)
        ∧ (opcode &&& GOT_DELTA_COPY_OFF3 = 0 ↔ p₃ = true)
        ∧ (opcode &&& GOT_DELTA_COPY_OFF4 = 0 ↔ p₄ = true)
        ∧ (opcode &&& GOT_DELTA_COPY_LEN1 = 0 ↔ q₁ = true)
        ∧ (opcode &&& GOT_DELTA_COPY_LEN2 = 0 ↔ q₂ = true)
        ∧ (opcode &&& GOT_DELTA_COPY_LEN3 = 0 ↔ q₃ = true) := by decide
  simpa only [operandFlag, decide_eq_true_eq] using
    key (b₁ = 0) (b₂ = 0) (b₃ = 0) (b₄ = 0) (c₁ = 0) (c₂ = 0) (c₃ = 0)

/-- **An operand byte is read** if it is there, and the stream is left at what
follows it. -/
theorem opcodeByte_operandByte {opcode flag b : UInt8} (h : opcode &&& flag = 0 ↔ b = 0)
    (shift acc : ℕ) (cur : UInt8) (rest : Bytes) :
    opcodeByte opcode flag shift acc (cur :: (operandByte b ++ rest))
      = .ok (acc ||| b.toNat <<< shift, (if b = 0 then cur else b) :: rest) := by
  unfold opcodeByte operandByte
  by_cases hb : b = 0
  · rw [if_pos (h.mpr hb), if_pos hb, if_pos hb, hb]
    simp
  · rw [if_neg (fun h' => hb (h.mp h')), if_neg hb, if_neg hb]
    rfl

/-- The bytes of a number add up, each at its place. -/
theorem or_byteOf (n k : ℕ) :
    n % 256 ^ k ||| (byteOf n k).toNat <<< (8 * k) = n % 256 ^ (k + 1) := by
  have hpow : 256 ^ k = 2 ^ (8 * k) := by rw [Nat.pow_mul]
  have hbyte : (byteOf n k).toNat = n / 256 ^ k % 256 := rfl
  have hlt : n % 256 ^ k < 2 ^ (8 * k) := hpow ▸ Nat.mod_lt n (Nat.pow_pos (by decide))
  rw [hbyte, Nat.shiftLeft_eq, Nat.or_comm, Nat.mul_comm, ← Nat.two_pow_add_eq_or_of_lt hlt,
    Nat.pow_succ, Nat.mod_mul, hpow, Nat.add_comm]

/-- The four bytes of an offset. -/
theorem or_bytes_offset {off : ℕ} (h : off < 2 ^ 32) :
    0 ||| (byteOf off 0).toNat <<< 0 ||| (byteOf off 1).toNat <<< 8 ||| (byteOf off 2).toNat <<< 16
      ||| (byteOf off 3).toNat <<< 24 = off := by
  have h₀ : 0 ||| (byteOf off 0).toNat <<< 0 = off % 256 ^ 1 := by
    have := or_byteOf off 0
    rwa [Nat.pow_zero, Nat.mod_one] at this
  rw [h₀, or_byteOf off 1, or_byteOf off 2, or_byteOf off 3]
  exact Nat.mod_eq_of_lt h

/-- The three bytes of a length. -/
theorem or_bytes_len {len : ℕ} (h : len < 2 ^ 24) :
    0 ||| (byteOf len 0).toNat <<< 0 ||| (byteOf len 1).toNat <<< 8 ||| (byteOf len 2).toNat <<< 16
      = len := by
  have h₀ : 0 ||| (byteOf len 0).toNat <<< 0 = len % 256 ^ 1 := by
    have := or_byteOf len 0
    rwa [Nat.pow_zero, Nat.mod_one] at this
  rw [h₀, or_byteOf len 1, or_byteOf len 2]
  exact Nat.mod_eq_of_lt h

/-- The length that is meant, from the one that is written. -/
theorem default_writtenLen {len : ℕ} (h : 1 ≤ len) :
    (if writtenLen len = 0 then GOT_DELTA_COPY_DEFAULT_LEN else writtenLen len) = len := by
  unfold writtenLen
  split
  · next hl => rw [if_pos rfl, hl]
  · rw [if_neg (by omega)]

/-- What is read if the flags are those of the bytes that are there. -/
theorem parseOpcode_of_flags {opcode b₁ b₂ b₃ b₄ c₁ c₂ c₃ : UInt8}
    (h₁ : opcode &&& GOT_DELTA_COPY_OFF1 = 0 ↔ b₁ = 0)
    (h₂ : opcode &&& GOT_DELTA_COPY_OFF2 = 0 ↔ b₂ = 0)
    (h₃ : opcode &&& GOT_DELTA_COPY_OFF3 = 0 ↔ b₃ = 0)
    (h₄ : opcode &&& GOT_DELTA_COPY_OFF4 = 0 ↔ b₄ = 0)
    (h₅ : opcode &&& GOT_DELTA_COPY_LEN1 = 0 ↔ c₁ = 0)
    (h₆ : opcode &&& GOT_DELTA_COPY_LEN2 = 0 ↔ c₂ = 0)
    (h₇ : opcode &&& GOT_DELTA_COPY_LEN3 = 0 ↔ c₃ = 0) (rest : Bytes) :
    ∃ cur, parseOpcode (opcode :: (operandByte b₁ ++ (operandByte b₂ ++ (operandByte b₃
        ++ (operandByte b₄ ++ (operandByte c₁ ++ (operandByte c₂ ++ (operandByte c₃ ++ rest))))))))
      = .ok (let o := 0 ||| b₁.toNat <<< 0 ||| b₂.toNat <<< 8 ||| b₃.toNat <<< 16
            ||| b₄.toNat <<< 24
          let l := 0 ||| c₁.toNat <<< 0 ||| c₂.toNat <<< 8 ||| c₃.toNat <<< 16
          (if o = 0 then GOT_DELTA_COPY_DEFAULT_OFF else o,
            if l = 0 then GOT_DELTA_COPY_DEFAULT_LEN else l, cur :: rest)) := by
  unfold parseOpcode
  rw [List.headD_cons]
  dsimp only
  rw [opcodeByte_operandByte h₁, ok_bind]
  dsimp only
  rw [opcodeByte_operandByte h₂, ok_bind]
  dsimp only
  rw [opcodeByte_operandByte h₃, ok_bind]
  dsimp only
  rw [opcodeByte_operandByte h₄, ok_bind]
  dsimp only
  rw [opcodeByte_operandByte h₅, ok_bind]
  dsimp only
  rw [opcodeByte_operandByte h₆, ok_bind]
  dsimp only
  rw [opcodeByte_operandByte h₇, ok_bind]
  exact ⟨_, rfl⟩

/-- **The operands of a copy instruction are read back.** -/
theorem parseOpcode_copy {off len : ℕ} (hoff : off < 2 ^ 32) (hlen : 1 ≤ len)
    (hlen' : len ≤ 0xffffff) (rest : Bytes) :
    ∃ cur, parseOpcode (encodeInstr (.copy off len) ++ rest) = .ok (off, len, cur :: rest) := by
  obtain ⟨-, h₁, h₂, h₃, h₄, h₅, h₆, h₇⟩ := copyOpcode_flags (byteOf off 0) (byteOf off 1)
    (byteOf off 2) (byteOf off 3) (byteOf (writtenLen len) 0) (byteOf (writtenLen len) 1)
    (byteOf (writtenLen len) 2)
  obtain ⟨cur, hcur⟩ := parseOpcode_of_flags h₁ h₂ h₃ h₄ h₅ h₆ h₇ rest
  have hwritten : writtenLen len < 2 ^ 24 := by
    unfold writtenLen
    split <;> omega
  rw [or_bytes_offset hoff, or_bytes_len hwritten] at hcur
  dsimp only at hcur
  have hdefault : (if off = 0 then GOT_DELTA_COPY_DEFAULT_OFF else off) = off := by
    split
    · next h => rw [h]; rfl
    · rfl
  rw [default_writtenLen hlen, hdefault] at hcur
  refine ⟨cur, ?_⟩
  simp only [encodeInstr, List.cons_append, List.append_assoc]
  exact hcur

/-! ## Instructions -/

/-- **Decoding an instruction undoes encoding it.** -/
theorem decodeInstr_encodeInstr {n : ℕ} {i : Instr UInt8} (h : Encodable n i) (rest : Bytes) :
    decodeInstr (encodeInstr i ++ rest) = some (i, rest) := by
  cases i with
  | copy off len =>
    obtain ⟨hoff, hlen, hlen', -⟩ := h
    obtain ⟨cur, hcur⟩ := parseOpcode_copy hoff hlen hlen' rest
    have hflag : copyOpcode off (writtenLen len) &&& GOT_DELTA_BASE_COPY ≠ 0 :=
      (copyOpcode_flags (byteOf off 0) (byteOf off 1) (byteOf off 2) (byteOf off 3)
        (byteOf (writtenLen len) 0) (byteOf (writtenLen len) 1) (byteOf (writtenLen len) 2)).1
    rw [encodeInstr, List.cons_append] at hcur ⊢
    rw [decodeInstr_cons, if_pos hflag, hcur]
    rfl
  | insert data =>
    obtain ⟨hpos, hle⟩ := h
    have hlen : data.length.toUInt8.toNat = data.length := Nat.mod_eq_of_lt (by omega)
    have hflag : data.length.toUInt8 &&& GOT_DELTA_BASE_COPY = 0 := by
      have hall : ∀ k < 128, (k : ℕ).toUInt8 &&& GOT_DELTA_BASE_COPY = 0 := by decide
      exact hall data.length (by omega)
    rw [encodeInstr, List.cons_append, decodeInstr_cons, if_neg (not_not.mpr hflag), hlen,
      if_neg (by rw [List.length_append]; omega), List.take_left, List.drop_left]

theorem encodeInstr_ne_nil (i : Instr UInt8) : encodeInstr i ≠ [] := by
  cases i <;> exact List.cons_ne_nil _ _

/-- **Decoding a program undoes encoding it.** -/
theorem decodeInstrs_encodeInstrs {n fuel : ℕ} {is : List (Instr UInt8)}
    (h : ∀ i ∈ is, Encodable n i) (hfuel : (is.flatMap encodeInstr).length ≤ fuel) :
    decodeInstrs fuel (is.flatMap encodeInstr) = some is := by
  induction is generalizing fuel with
  | nil => cases fuel <;> rfl
  | cons i is ih =>
    obtain ⟨c, p, hc⟩ := List.exists_cons_of_ne_nil (encodeInstr_ne_nil i)
    have hi := decodeInstr_encodeInstr (h i List.mem_cons_self) (is.flatMap encodeInstr)
    rw [List.flatMap_cons, List.length_append, hc, List.length_cons] at hfuel
    rw [hc] at hi
    rw [List.flatMap_cons, hc]
    obtain ⟨fuel, rfl⟩ : ∃ f, fuel = f + 1 := ⟨fuel - 1, by omega⟩
    rw [List.cons_append] at hi ⊢
    rw [decodeInstrs, hi]
    dsimp only
    rw [ih (fun j hj => h j (List.mem_cons_of_mem i hj)) (by omega)]
    rfl

/-! ## Sizes -/

/-- The `i`-th group of a size, shifted to its place as an `int`. -/
def shiftedGroup (i n : ℕ) : BitVec 32 := BitVec.ofNat 32 (n % 128) <<< (7 * i % 32)

/-- `k` groups of a size, from the `i`-th on. -/
def shiftedGroups : ℕ → ℕ → ℕ → BitVec 32
  | 0, _, _ => 0#32
  | k + 1, i, n => shiftedGroup i n ||| shiftedGroups k (i + 1) (n / 128)

/-- **What `parse_size` makes of a size.** -/
def parsedSize (n : ℕ) : UInt64 := ⟨(shiftedGroups 10 0 n).signExtend 64⟩

/-- The sizes that `parse_size` makes out: those that are not negative as an
`int`, and those in which all bits that get lost are set anyway. -/
def Survives (n : ℕ) : Prop := n < 2 ^ 31 ∨ 2 ^ 64 - 8 ≤ n

/-- The groups of a size are those of its bits, seven at a time. -/
theorem shiftedGroups_eq (k i n : ℕ) : shiftedGroups k i n = placeGroups k (7 * i) n := by
  induction k generalizing i n with
  | zero => rfl
  | succ k ih =>
    rw [shiftedGroups, ih, placeGroups]
    rfl

/-- What a byte contributes is its group, at its place. -/
theorem shiftByte_group {b : UInt8} {n : ℕ} (h : b.toNat % 128 = n % 128) (place : ℕ) :
    shiftByte (b &&& 0x7f) place = ⟨(placeGroup place n).signExtend 64⟩ := by
  have hmask : (b &&& 0x7f).toNat = n % 128 := by
    rw [UInt8.toNat_and, ← h]
    exact Nat.and_two_pow_sub_one_eq_mod b.toNat 7
  have hbits : (b &&& 0x7f).toBitVec.zeroExtend 32 = BitVec.ofNat 32 (n % 128) := by
    refine BitVec.eq_of_toNat_eq ?_
    rw [BitVec.toNat_setWidth, BitVec.toNat_ofNat, ← hmask]
    rfl
  rw [shiftByte, hbits]
  rfl

/-- What a byte of a size contributes. -/
theorem sizeBits_of_group {b : UInt8} {n : ℕ} (h : b.toNat % 128 = n % 128) (i : ℕ) :
    sizeBits b i = ⟨(shiftedGroup i n).signExtend 64⟩ :=
  shiftByte_group h (7 * i)

/-- **Reading a size that was written**: every byte contributes what is left of
its group, and the stream is left at the last byte. -/
theorem parseSizeFrom_encodeSize {k i n : ℕ} (hk : k + i = 10) (hn : n * 128 ^ i < 2 ^ 64)
    (hi : i ≤ 9) (s : UInt64) (rest : Bytes) :
    ∃ b, parseSizeFrom i s (encodeSize n ++ rest)
      = .ok (s ||| ⟨(shiftedGroups k i n).signExtend 64⟩, b :: rest) := by
  induction k generalizing i n s with
  | zero => omega
  | succ k ih =>
    rw [encodeSize]
    split
    · next hlt =>
      have hb : n.toUInt8.toNat = n := Nat.mod_eq_of_lt (by omega)
      have hmore : n.toUInt8 &&& GOT_DELTA_SIZE_MORE = 0 := by
        have hall : ∀ m < 128, (m : ℕ).toUInt8 &&& GOT_DELTA_SIZE_MORE = 0 := by decide
        exact hall n hlt
      refine ⟨n.toUInt8, ?_⟩
      rw [List.singleton_append, parseSizeFrom, if_neg (by omega)]
      dsimp only
      rw [if_pos hmore, sizeBits_of_group (by rw [hb]), shiftedGroups_eq, placeGroups_of_lt hlt]
      rfl
    · next hge =>
      have hb : (n % 128 + 128).toUInt8.toNat = n % 128 + 128 := Nat.mod_eq_of_lt (by omega)
      have hmore : (n % 128 + 128).toUInt8 &&& GOT_DELTA_SIZE_MORE ≠ 0 := by
        have hall : ∀ m < 128, (m + 128 : ℕ).toUInt8 &&& GOT_DELTA_SIZE_MORE ≠ 0 := by decide
        exact hall (n % 128) (Nat.mod_lt n (by decide))
      have hstep : n / 128 * 128 ^ (i + 1) ≤ n * 128 ^ i := by
        rw [Nat.pow_succ', ← Nat.mul_assoc]
        exact Nat.mul_le_mul_right _ (Nat.div_mul_le_self n 128)
      have hi' : i + 1 ≤ 9 := by
        have hpos : 1 * 128 ^ (i + 1) ≤ n / 128 * 128 ^ (i + 1) :=
          Nat.mul_le_mul_right _ (by omega)
        by_contra hlt
        have hpow : 128 ^ 10 ≤ 128 ^ (i + 1) := Nat.pow_le_pow_right (by decide) (by omega)
        omega
      obtain ⟨c, p, hc⟩ := List.exists_cons_of_ne_nil
        (show encodeSize (n / 128) ++ rest ≠ [] by rw [encodeSize]; split <;> simp)
      obtain ⟨b, hb'⟩ := ih (by omega) (hstep.trans_lt hn) hi'
        (s ||| ⟨(shiftedGroup i n).signExtend 64⟩)
      refine ⟨b, ?_⟩
      rw [List.cons_append, parseSizeFrom, if_neg (by omega)]
      dsimp only
      rw [if_neg hmore, sizeBits_of_group (n := n) (by rw [hb]; omega), hc]
      dsimp only
      rw [← hc, hb', or_signExtend]
      rfl

/-! ## Which sizes survive -/

/-- The next groups only add bits. -/
theorem shiftedGroups_le (k i n : ℕ) :
    (shiftedGroups k (i + 1) (n / 128)).toNat ≤ (shiftedGroups (k + 1) i n).toNat := by
  rw [shiftedGroups_eq, shiftedGroups_eq]
  exact placeGroups_le k (7 * i) n

/-- If all bits from 31 on are set, then so are those from 3 on. -/
theorem le_toNat_shiftedGroups {n : ℕ} (hn : n < 2 ^ 64) (h : 2 ^ 64 - 2 ^ 31 ≤ n) :
    2 ^ 32 - 8 ≤ (shiftedGroups 10 0 n).toNat := by
  have hhigh : n / 128 / 128 / 128 / 128 / 128 = 2 ^ 29 - 1 := by omega
  have hlast : (shiftedGroups 5 5 (2 ^ 29 - 1)).toNat = 2 ^ 32 - 8 := by decide
  calc 2 ^ 32 - 8 = (shiftedGroups 5 5 (n / 128 / 128 / 128 / 128 / 128)).toNat := by
        rw [hhigh, hlast]
    _ ≤ (shiftedGroups 6 4 (n / 128 / 128 / 128 / 128)).toNat := shiftedGroups_le 5 4 _
    _ ≤ (shiftedGroups 7 3 (n / 128 / 128 / 128)).toNat := shiftedGroups_le 6 3 _
    _ ≤ (shiftedGroups 8 2 (n / 128 / 128)).toNat := shiftedGroups_le 7 2 _
    _ ≤ (shiftedGroups 9 1 (n / 128)).toNat := shiftedGroups_le 8 1 _
    _ ≤ (shiftedGroups 10 0 n).toNat := shiftedGroups_le 9 0 n

/-- **Which sizes come out as they were written.** -/
theorem parsedSize_eq_iff {n : ℕ} (hn : n < 2 ^ 64) : (parsedSize n).toNat = n ↔ Survives n := by
  have hsign : (parsedSize n).toNat = if (shiftedGroups 10 0 n).toNat < 2 ^ 31
      then (shiftedGroups 10 0 n).toNat
      else (shiftedGroups 10 0 n).toNat + (2 ^ 64 - 2 ^ 32) := toNat_signExtend_int _
  constructor
  · intro h
    rw [hsign] at h
    have hlt := (shiftedGroups 10 0 n).isLt
    split at h
    · next hsmall => exact Or.inl (h ▸ hsmall)
    · next hbig =>
      have hle := le_toNat_shiftedGroups hn (by omega)
      exact Or.inr (by omega)
  · rintro (h | h)
    · have hgroups : (shiftedGroups 10 0 n).toNat = n := by
        rw [shiftedGroups_eq, toNat_placeGroups (by omega) (by omega), Nat.mul_zero, Nat.pow_zero,
          Nat.mul_one]
      rw [hsign, hgroups, if_pos h]
    · obtain ⟨k, hk, rfl⟩ : ∃ k < 8, n = 2 ^ 64 - 8 + k := ⟨n - (2 ^ 64 - 8), by omega, by omega⟩
      have hall : ∀ k < 8, (parsedSize (2 ^ 64 - 8 + k)).toNat = 2 ^ 64 - 8 + k := by decide
      exact hall k hk

/-! ## Deltas -/

/-- **A delta to be encoded**: a base, and a program that stays within it. -/
structure EncodableDelta where
  base : Bytes
  instrs : List (Instr UInt8)
  ne_nil : instrs ≠ []
  encodable : ∀ i ∈ instrs, Encodable base.length i
  base_lt : base.length < 2 ^ 64
  size_lt : size instrs < 2 ^ 64

namespace EncodableDelta

variable (d : EncodableDelta)

/-- The stream. -/
def encode : Bytes := encodeDelta d.base.length d.instrs

/-- **Decoding undoes encoding**: the two sizes are what they are, and where
there is room for the result, it is what the program makes of the base. -/
structure Decodes : Prop where
  sizes : ∃ baseSize resultSize, gotDeltaGetSizes d.encode = .ok (baseSize, resultSize)
    ∧ baseSize.toNat = d.base.length ∧ resultSize.toNat = size d.instrs
  apply : ∀ (baseBuf : Block) (maxoutsize : ℕ), Holds baseBuf d.base → size d.instrs ≤ maxoutsize →
    gotDeltaApplyInMem baseBuf d.base.length d.encode maxoutsize = .ok (runList d.base d.instrs)

variable {d}

/-- An encodable delta copies from within its base. -/
theorem inBounds : InBounds d.base.length d.instrs := by
  intro i hi
  have h := d.encodable i hi
  cases i with
  | copy off len => exact h.2.2.2
  | insert data => exact Nat.zero_le _

/-- What is behind the sizes. -/
theorem instrs_ne_nil : d.instrs.flatMap encodeInstr ≠ [] := by
  obtain ⟨i, is, h⟩ := List.exists_cons_of_ne_nil d.ne_nil
  rw [h, List.flatMap_cons]
  exact List.append_ne_nil_of_left_ne_nil (encodeInstr_ne_nil i) _

theorem encodeSize_pos (n : ℕ) : 1 ≤ (encodeSize n).length := by
  rw [encodeSize]
  split <;> simp

/-- A length that is not the default one takes at least a byte. -/
theorem length_encodeInstr_copy {off len : ℕ} (h : 1 ≤ len) (h' : len ≤ 0xffffff)
    (hne : len ≠ GOT_DELTA_COPY_DEFAULT_LEN) : 2 ≤ (encodeInstr (.copy off len)).length := by
  have hbyte : ∀ b : UInt8, b ≠ 0 → (operandByte b).length = 1 := fun b hb => by
    rw [operandByte, if_neg hb]
    rfl
  have hsome : byteOf len 0 ≠ 0 ∨ byteOf len 1 ≠ 0 ∨ byteOf len 2 ≠ 0 := by
    by_contra hall
    obtain ⟨h₀, h₁, h₂⟩ : byteOf len 0 = 0 ∧ byteOf len 1 = 0 ∧ byteOf len 2 = 0 := by
      simpa only [not_or, not_not] using hall
    have hbytes := or_bytes_len (show len < 2 ^ 24 by omega)
    rw [h₀, h₁, h₂] at hbytes
    exact absurd (show 0 = len from hbytes) (by omega)
  have hwritten : writtenLen len = len := if_neg hne
  simp only [encodeInstr, hwritten, List.length_cons, List.length_append]
  rcases hsome with hb | hb | hb <;> have := hbyte _ hb <;> omega

/-- **A stream is never too short**: an instruction of one byte copies so much
that the size of the base takes more than one. -/
theorem length_encode : GOT_DELTA_STREAM_LENGTH_MIN ≤ d.encode.length := by
  obtain ⟨i, is, h⟩ := List.exists_cons_of_ne_nil d.ne_nil
  have hi := d.encodable i (h ▸ List.mem_cons_self)
  have hsize := encodeSize_pos (size d.instrs)
  have hbase := encodeSize_pos d.base.length
  have hlong : 4 ≤ (encodeSize d.base.length).length + 1 + (encodeInstr i).length := by
    cases i with
    | insert data =>
      have : (encodeInstr (.insert data)).length = data.length + 1 := rfl
      have := hi.1
      omega
    | copy off len =>
      obtain ⟨-, hlen, hlen', hfit⟩ := hi
      have hpos : 1 ≤ (encodeInstr (.copy off len)).length :=
        List.length_pos_iff.mpr (encodeInstr_ne_nil _)
      by_cases hdefault : len = GOT_DELTA_COPY_DEFAULT_LEN
      · have hlarge : ¬d.base.length < 128 := by
          have : GOT_DELTA_COPY_DEFAULT_LEN = 65536 := rfl
          omega
        have := encodeSize_pos (d.base.length / 128)
        rw [encodeSize, if_neg hlarge, List.length_cons]
        omega
      · have : 2 ≤ (encodeInstr (.copy off len)).length :=
          length_encodeInstr_copy hlen hlen' hdefault
        omega
  unfold encode encodeDelta
  rw [h, List.flatMap_cons, ← h, List.length_append, List.length_append, List.length_append]
  show 4 ≤ _
  omega

/-- **The two sizes are read**, as what `parse_size` makes of them. -/
theorem parseDeltaSizes_encode : ∃ b, parseDeltaSizes d.encode
    = .ok (parsedSize d.base.length, parsedSize (size d.instrs),
        b :: d.instrs.flatMap encodeInstr) := by
  have hsize : ∀ n < 2 ^ 64, ∀ rest, ∃ b, parseSize (encodeSize n ++ rest)
      = .ok (parsedSize n, b :: rest) := by
    intro n hn rest
    obtain ⟨b, hb⟩ := parseSizeFrom_encodeSize (k := 10) (i := 0) (n := n) rfl (by omega)
      (by omega) 0 rest
    rw [UInt64.zero_or] at hb
    exact ⟨b, hb⟩
  obtain ⟨b, hb⟩ := hsize _ d.base_lt (encodeSize (size d.instrs) ++ d.instrs.flatMap encodeInstr)
  obtain ⟨c, hc⟩ := hsize _ d.size_lt (d.instrs.flatMap encodeInstr)
  have hnext : nextDeltaByte (b :: (encodeSize (size d.instrs) ++ d.instrs.flatMap encodeInstr))
      = .ok (encodeSize (size d.instrs) ++ d.instrs.flatMap encodeInstr) :=
    nextDeltaByte_eq_ok_iff.mpr ⟨rfl, List.append_ne_nil_of_right_ne_nil _ instrs_ne_nil⟩
  refine ⟨c, ?_⟩
  unfold parseDeltaSizes encode encodeDelta
  rw [hb, ok_bind]
  dsimp only
  rw [hnext, ok_bind, hc]
  rfl

/-- The two sizes in front of a delta are read as the decoder puts them together. -/
theorem gotDeltaGetSizes_encode :
    gotDeltaGetSizes d.encode = .ok (parsedSize d.base.length, parsedSize (size d.instrs)) := by
  obtain ⟨b, hb⟩ := parseDeltaSizes_encode (d := d)
  unfold gotDeltaGetSizes
  rw [if_neg (Nat.not_lt.mpr length_encode), hb]
  rfl

/-- **What the code reads of an encoded delta** is the program. -/
theorem readDelta_encode :
    readDelta d.encode = some ((parsedSize (size d.instrs)).toNat, d.instrs) := by
  obtain ⟨b, hb⟩ := parseDeltaSizes_encode (d := d)
  have hnext : nextDeltaByte (b :: d.instrs.flatMap encodeInstr)
      = .ok (d.instrs.flatMap encodeInstr) := nextDeltaByte_eq_ok_iff.mpr ⟨rfl, instrs_ne_nil⟩
  unfold readDelta
  rw [if_neg (Nat.not_lt.mpr length_encode), hb]
  dsimp only
  rw [hnext]
  dsimp only
  rw [decodeInstrs_encodeInstrs d.encodable (Nat.le_refl _)]
  rfl

variable (d) in
/-- **Decoding undoes encoding if and only if both sizes survive**, that of the base and that of the
result. The decoder shifts each group of seven bits as an `int` before it is added to the size, so
that from the fifth byte on the sign is carried into the upper half, and bits are lost. -/
theorem decodes_iff_survives : d.Decodes ↔ Survives d.base.length ∧ Survives (size d.instrs) := by
  rw [← parsedSize_eq_iff d.base_lt, ← parsedSize_eq_iff d.size_lt]
  constructor
  · rintro ⟨⟨baseSize, resultSize, hsizes, hbase, hresult⟩, -⟩
    rw [gotDeltaGetSizes_encode] at hsizes
    obtain ⟨rfl, rfl⟩ := Prod.mk.inj (Except.ok.inj hsizes)
    exact ⟨hbase, hresult⟩
  · rintro ⟨hbase, hresult⟩
    refine ⟨⟨_, _, gotDeltaGetSizes_encode, hbase, hresult⟩, fun baseBuf max hholds hmax => ?_⟩
    refine (gotDeltaApplyInMem_eq_ok_iff _ _ _ _ _).mpr ⟨d.instrs, ?_, inBounds, hmax, ?_⟩
    · rw [readDelta_encode, hresult]
    · exact (run_eq_runList hholds inBounds).symm

end EncodableDelta

/-! A base of 2 GB, and a delta that copies its first byte. -/

/-- A base of 2^31 bytes: the smallest whose size the shifts of an `int` get wrong. -/
def hugeBase : EncodableDelta where
  base := List.replicate (2 ^ 31) 0
  instrs := [.copy 0 1]
  ne_nil := List.cons_ne_nil _ _
  encodable := by
    intro i hi
    obtain rfl := List.mem_singleton.mp hi
    rw [List.length_replicate]
    exact ⟨by decide, by decide, by decide, by decide⟩
  base_lt := by
    rw [List.length_replicate]
    decide
  size_lt := by decide

/-- Its size is read with the sign bit carried into the upper half, so that the delta no longer
decodes to it. -/
theorem hugeBase_not_decodes :
    gotDeltaGetSizes hugeBase.encode = .ok (0xffffffff80000000, 1) ∧ ¬hugeBase.Decodes := by
  have hlen : hugeBase.base.length = 2 ^ 31 := List.length_replicate
  have hsizes : gotDeltaGetSizes hugeBase.encode = .ok (0xffffffff80000000, 1) := by
    rw [EncodableDelta.gotDeltaGetSizes_encode, hlen]
    decide
  refine ⟨hsizes, fun h => ?_⟩
  obtain ⟨baseSize, resultSize, heq, hbase, -⟩ := h.sizes
  rw [hsizes] at heq
  obtain ⟨rfl, -⟩ := Prod.mk.inj (Except.ok.inj heq)
  rw [hlen] at hbase
  exact absurd hbase (by decide)

end Got

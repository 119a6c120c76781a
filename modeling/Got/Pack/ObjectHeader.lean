import Got.DeltaEncode
import Got.Pack.Packfile

/-!
# Object headers as git writes them

Git writes the type and the size of an object, and the distance of an offset
delta to its base, as numbers of variable length. Both have a bit in each byte
which says whether one more follows, but the groups of a size come lowest first
and those of an offset highest first, and in an offset each byte but the last
counts from one.

The code reads every offset as it was written (`parseNegativeOffset_encodeOffset`).
Of a size, `got_pack_parse_object_type_and_size` shifts each group as an `int`, as
`parse_size` does for deltas. The groups are placed in another way here, behind the
four bits of the first byte, so that a size reaches the sign with its fifth byte
(`parsedObjectSize_eq_iff`).
-/

namespace Got

open Groups

/-! ## Git's encoding -/

/-- **The type and the size of an object**: four bits of size in the first byte,
and the rest in groups of seven bits. -/
def encodeTypeAndSize (type size : ℕ) : Bytes :=
  if size < 16 then [(16 * type + size).toUInt8]
  else (16 * type + size % 16 + 128).toUInt8 :: encodeSize (size / 16)

/-- The bytes of an offset before the last, for what is left of it without the last. -/
def encodeOffsetMore (n : ℕ) : Bytes :=
  if n = 0 then [] else encodeOffsetMore ((n - 1) / 128) ++ [((n - 1) % 128 + 128).toUInt8]
termination_by n
decreasing_by omega

/-- **The distance of an offset delta to its base.** -/
def encodeOffset (n : ℕ) : Bytes := encodeOffsetMore (n / 128) ++ [(n % 128).toUInt8]

/-! ## What is in a pack file -/

namespace Pack

variable {pack : Pack} {offset : ℕ} {b : UInt8} {l m : Bytes}

/-- **Bytes at a position of a pack file.** -/
def Has (pack : Pack) (offset : ℕ) (l : Bytes) : Prop := l <+: pack.file.drop offset

/-- What is at a place of the pack can be read there, byte by byte. -/
theorem Has.byteAt (h : pack.Has offset (b :: l)) : pack.byteAt offset = .ok b := by
  obtain ⟨rest, hrest⟩ := h
  have hget : pack.file[offset]? = some b := by
    rw [← List.head?_drop, ← hrest]
    rfl
  rw [Pack.byteAt, hget]

theorem Has.append_right (h : pack.Has offset (l ++ m)) : pack.Has (offset + l.length) m := by
  obtain ⟨rest, hrest⟩ := h
  refine ⟨rest, ?_⟩
  rw [← List.drop_drop, ← hrest, List.append_assoc, List.drop_left]

theorem Has.append_left (h : pack.Has offset (l ++ m)) : pack.Has offset l :=
  (List.prefix_append l m).trans h

theorem Has.tail (h : pack.Has offset (b :: l)) : pack.Has (offset + 1) l :=
  Has.append_right (l := [b]) h

/-- Something is there only before the end. -/
theorem Has.lt_filesize (h : pack.Has offset l) (hl : l ≠ []) : offset < pack.filesize := by
  by_contra hge
  have hnil : pack.file.drop offset = [] := List.drop_eq_nil_of_le (Nat.not_lt.mp hge)
  exact hl (List.prefix_nil.mp (hnil ▸ h))

end Pack

variable {pack : Pack} {offset : ℕ}

/-! ## Sizes -/

/-- **What the code makes of a size.** -/
def parsedObjectSize (n : ℕ) : UInt64 :=
  (n % 16).toUInt64 ||| ⟨(placeGroups 9 4 (n / 16)).signExtend 64⟩

theorem more_of_lt : ∀ n < 128, (n : ℕ).toUInt8 &&& GOT_PACK_OBJ_SIZE_MORE = 0 := by decide

theorem more_of_ge : ∀ n < 128, (n + 128 : ℕ).toUInt8 &&& GOT_PACK_OBJ_SIZE_MORE ≠ 0 := by decide

/-- **The bytes of a size after the first.** Every one contributes its group. -/
theorem parseTypeAndSizeFrom_encodeSize {k j n : ℕ} (hk : k + j = 9) (hpos : 1 ≤ n)
    (hn : n * 2 ^ (4 + 7 * j) < 2 ^ 64) (h : pack.Has (offset + (j + 1)) (encodeSize n)) (t : UInt8)
    (s : UInt64) :
    parseTypeAndSizeFrom pack offset k (j + 1) t s = .ok
      { offset, tslen := j + 1 + (encodeSize n).length, type := t,
        size := s ||| ⟨(placeGroups k (4 + 7 * j) n).signExtend 64⟩ } := by
  induction k generalizing j n s with
  | zero =>
    obtain rfl : j = 9 := by omega
    exact absurd hn (by omega)
  | succ k ih =>
    rw [encodeSize] at h ⊢
    split at h
    · next hlt =>
      have hbyte : n.toUInt8.toNat = n := Nat.mod_eq_of_lt (by omega)
      rw [parseTypeAndSizeFrom, h.byteAt, ok_bind, if_neg (Nat.succ_ne_zero j),
        if_neg (Nat.succ_ne_zero j),
        if_neg (not_not.mpr (more_of_lt n hlt)), if_pos hlt, placeGroups_of_lt hlt]
      have hbits : shiftByte (n.toUInt8 &&& GOT_PACK_OBJ_SIZE_VAL_MASK) (4 + 7 * j)
          = ⟨(placeGroup (4 + 7 * j) n).signExtend 64⟩ := shiftByte_group (by rw [hbyte]) _
      rw [Nat.add_sub_cancel, hbits]
      rfl
    · next hge =>
      have hbyte : (n % 128 + 128).toUInt8.toNat = n % 128 + 128 := Nat.mod_eq_of_lt (by omega)
      have hrest : n / 128 * 2 ^ (4 + 7 * (j + 1)) < 2 ^ 64 := (rest_le (4 + 7 * j) n).trans_lt hn
      have hbits : shiftByte ((n % 128 + 128).toUInt8 &&& GOT_PACK_OBJ_SIZE_VAL_MASK) (4 + 7 * j)
          = ⟨(placeGroup (4 + 7 * j) n).signExtend 64⟩ := shiftByte_group (by rw [hbyte]; omega) _
      rw [parseTypeAndSizeFrom, h.byteAt, ok_bind, if_neg (Nat.succ_ne_zero j),
        if_neg (Nat.succ_ne_zero j),
        if_pos (more_of_ge (n % 128) (Nat.mod_lt n (by decide))), if_neg hge, Nat.add_sub_cancel,
          hbits,
        ih (by omega) (by omega) hrest h.tail, or_signExtend, List.length_cons]
      refine congrArg Except.ok (ObjHdr.mk.injEq .. ▸ ⟨rfl, by omega, rfl, rfl⟩)

/-- The fields of the first byte. -/
theorem firstByte_fields : ∀ t < 8, ∀ n < 16,
    ((16 * t + n : ℕ).toUInt8 &&& GOT_PACK_OBJ_SIZE0_TYPE_MASK) >>>
    GOT_PACK_OBJ_SIZE0_TYPE_MASK_SHIFT
        = (t : ℕ).toUInt8
      ∧ ((16 * t + n : ℕ).toUInt8 &&& GOT_PACK_OBJ_SIZE0_VAL_MASK).toUInt64 = (n : ℕ).toUInt64
      ∧ (16 * t + n : ℕ).toUInt8 &&& GOT_PACK_OBJ_SIZE_MORE = 0 := by decide

theorem firstByte_fields_more : ∀ t < 8, ∀ n < 16,
    ((16 * t + n + 128 : ℕ).toUInt8 &&& GOT_PACK_OBJ_SIZE0_TYPE_MASK) >>>
        GOT_PACK_OBJ_SIZE0_TYPE_MASK_SHIFT = (t : ℕ).toUInt8
      ∧ ((16 * t + n + 128 : ℕ).toUInt8 &&& GOT_PACK_OBJ_SIZE0_VAL_MASK).toUInt64 = (n : ℕ).toUInt64
      ∧ (16 * t + n + 128 : ℕ).toUInt8 &&& GOT_PACK_OBJ_SIZE_MORE ≠ 0 := by decide

theorem encodeTypeAndSize_ne_nil (type size : ℕ) : encodeTypeAndSize type size ≠ [] := by
  rw [encodeTypeAndSize]
  split <;> exact List.cons_ne_nil _ _

/-- **A header that git wrote is parsed**: the type and the length are right, whatever becomes
of the size. -/
theorem gotPackParseObjectTypeAndSize_encode {type size : ℕ} (htype : type < 8)
    (hsize : size < 2 ^ 64)
    (h : pack.Has offset (encodeTypeAndSize type size)) :
    gotPackParseObjectTypeAndSize pack offset = .ok
      { offset, tslen := (encodeTypeAndSize type size).length, type := type.toUInt8,
        size := parsedObjectSize size } := by
  have hlt := h.lt_filesize (encodeTypeAndSize_ne_nil type size)
  rw [gotPackParseObjectTypeAndSize, if_neg (Nat.not_le.mpr hlt), parsedObjectSize]
  rw [encodeTypeAndSize] at h ⊢
  split at h
  · next hsmall =>
    obtain ⟨ht, hn, hmore⟩ := firstByte_fields type htype size hsmall
    have hbyte : pack.byteAt (offset + 0) = .ok (16 * type + size).toUInt8 := h.byteAt
    rw [parseTypeAndSizeFrom, hbyte, ok_bind, if_pos rfl, if_pos rfl, if_neg (not_not.mpr hmore),
      if_pos hsmall, ht, hn, Nat.div_eq_of_lt hsmall, Nat.mod_eq_of_lt hsmall, placeGroups_zero]
    have hzero : (⟨(0#32).signExtend 64⟩ : UInt64) = 0 := by decide
    rw [hzero, UInt64.or_zero]
    rfl
  · next hbig =>
    obtain ⟨ht, hn, hmore⟩ :=
      firstByte_fields_more type htype (size % 16) (Nat.mod_lt _ (by decide))
    have hbyte : pack.byteAt (offset + 0) = .ok (16 * type + size % 16 + 128).toUInt8 := h.byteAt
    rw [parseTypeAndSizeFrom, hbyte, ok_bind, if_pos rfl, if_pos rfl, if_pos hmore, if_neg hbig, ht,
      hn,
      parseTypeAndSizeFrom_encodeSize rfl (by omega) (by omega) h.tail, List.length_cons,
        Nat.zero_add,
      Nat.add_comm 1]

/-- All groups of a size, as one number of 32 bits. -/
theorem parsedObjectSize_eq (n : ℕ) :
    parsedObjectSize n = ⟨(BitVec.ofNat 32 (n % 16) ||| placeGroups 9 4 (n / 16)).signExtend
      64⟩ := by
  have hall : ∀ k < 16, (k : ℕ).toUInt64 = ⟨(BitVec.ofNat 32 k).signExtend 64⟩ := by decide
  rw [parsedObjectSize, hall (n % 16) (Nat.mod_lt n (by decide)), BitVec.signExtend_or]
  rfl

/-- If all bits from 31 on are set, then so are all the bits that are left. -/
theorem placeGroups_of_full {n : ℕ} (hn : n < 2 ^ 64) (h : 2 ^ 64 - 2 ^ 31 ≤ n) :
    2 ^ 32 - 1 ≤ (placeGroups 9 4 (n / 16)).toNat := by
  have hhigh : n / 16 / 128 / 128 / 128 / 128 = 2 ^ 32 - 1 := by omega
  have hlast : (placeGroups 5 32 (2 ^ 32 - 1)).toNat = 2 ^ 32 - 1 := by decide
  calc 2 ^ 32 - 1 = (placeGroups 5 32 (n / 16 / 128 / 128 / 128 / 128)).toNat := by rw [hhigh,
    hlast]
    _ ≤ (placeGroups 6 25 (n / 16 / 128 / 128 / 128)).toNat := placeGroups_le 5 25 _
    _ ≤ (placeGroups 7 18 (n / 16 / 128 / 128)).toNat := placeGroups_le 6 18 _
    _ ≤ (placeGroups 8 11 (n / 16 / 128)).toNat := placeGroups_le 7 11 _
    _ ≤ (placeGroups 9 4 (n / 16)).toNat := placeGroups_le 8 4 _

/-- The sizes that come out as they were written: those that are not negative as an `int`, and the
one of which every bit is set. -/
def SurvivesHeader (n : ℕ) : Prop := n < 2 ^ 31 ∨ n = 2 ^ 64 - 1

/-- **Which sizes come out as they were written.** -/
theorem parsedObjectSize_eq_iff {n : ℕ} (hn : n < 2 ^ 64) :
    parsedObjectSize n = n.toUInt64 ↔ SurvivesHeader n := by
  have hn' : n.toUInt64.toNat = n := Nat.mod_eq_of_lt hn
  rw [← UInt64.toNat_inj, hn', parsedObjectSize_eq]
  have hsign := toNat_signExtend_int (BitVec.ofNat 32 (n % 16) ||| placeGroups 9 4 (n / 16))
  have hor : (BitVec.ofNat 32 (n % 16) ||| placeGroups 9 4 (n / 16)).toNat
      = n % 16 ||| (placeGroups 9 4 (n / 16)).toNat := by
    rw [BitVec.toNat_or, BitVec.toNat_ofNat, Nat.mod_eq_of_lt (a := n % 16) (by omega)]
  show (BitVec.signExtend 64 _).toNat = n ↔ _
  constructor
  · intro h
    rw [hsign] at h
    have hlt := (BitVec.ofNat 32 (n % 16) ||| placeGroups 9 4 (n / 16)).isLt
    split at h
    · next hsmall => exact Or.inl (h ▸ hsmall)
    · next hbig =>
      have hfull := placeGroups_of_full hn (by omega)
      have hle : (placeGroups 9 4 (n / 16)).toNat
          ≤ (BitVec.ofNat 32 (n % 16) ||| placeGroups 9 4 (n / 16)).toNat := hor ▸ Nat.right_le_or
      exact Or.inr (by omega)
  · rintro (h | rfl)
    · have hgroups : (placeGroups 9 4 (n / 16)).toNat = n / 16 * 2 ^ 4 :=
        toNat_placeGroups (by omega) (by omega)
      have hval : (BitVec.ofNat 32 (n % 16) ||| placeGroups 9 4 (n / 16)).toNat = n := by
        have hlow : n % 16 < 2 ^ 4 := Nat.mod_lt n (by decide)
        rw [hor, hgroups, Nat.or_comm, Nat.mul_comm, ← Nat.two_pow_add_eq_or_of_lt hlow]
        exact Nat.div_add_mod n 16
      rw [hsign, hval, if_pos h]
    · decide

/-! ## Offsets -/

/-- As many bytes are enough as the number has groups. -/
theorem length_encodeOffsetMore_le {k n : ℕ} (h : n < 128 ^ k) :
    (encodeOffsetMore n).length ≤ k := by
  induction k generalizing n with
  | zero =>
    obtain rfl : n = 0 := Nat.lt_one_iff.mp h
    rw [encodeOffsetMore]
    exact Nat.le_refl 0
  | succ k ih =>
    rw [encodeOffsetMore]
    split
    · exact Nat.zero_le _
    · have hrest : (n - 1) / 128 < 128 ^ k :=
        Nat.div_lt_of_lt_mul (Nat.pow_succ' ▸ (Nat.sub_le n 1).trans_lt h)
      rw [List.length_append]
      exact Nat.succ_le_succ (ih hrest)

theorem offsetMore_of_lt : ∀ n < 128, (n : ℕ).toUInt8 &&& GOT_PACK_OBJ_DELTA_OFF_MORE = 0
    ∧ ((n : ℕ).toUInt8 &&& GOT_PACK_OBJ_DELTA_OFF_VAL_MASK).toUInt64 = (n : ℕ).toUInt64 := by decide

theorem offsetMore_of_ge : ∀ n < 128, (n + 128 : ℕ).toUInt8 &&& GOT_PACK_OBJ_DELTA_OFF_MORE ≠ 0
    ∧ ((n + 128 : ℕ).toUInt8 &&& GOT_PACK_OBJ_DELTA_OFF_VAL_MASK).toUInt64 = (n : ℕ).toUInt64 := by
  decide

/-- What one more group makes of an offset, behind the bytes of `n`. -/
theorem next_offset {n : ℕ} (hn : n < 128 ^ 8) (v : ℕ) :
    (if (encodeOffsetMore n).length = 0 then v.toUInt64
      else (((n - 1).toUInt64 + 1) <<< 7) + v.toUInt64) = (n * 128 + v).toUInt64 := by
  rw [encodeOffsetMore]
  by_cases h : n = 0
  · rw [h, if_pos rfl, Nat.zero_mul, Nat.zero_add]
    rfl
  · rw [if_neg h, List.length_append, List.length_singleton, if_neg (Nat.succ_ne_zero _)]
    have hone : (n - 1).toUInt64 + 1 = n.toUInt64 := by
      refine UInt64.toNat_inj.mp ?_
      show ((n - 1) % 2 ^ 64 + 1) % 2 ^ 64 = n % 2 ^ 64
      omega
    refine UInt64.toNat_inj.mp ?_
    rw [hone, UInt64.toNat_add, UInt64.toNat_shiftLeft]
    show (((n % 2 ^ 64) <<< 7) % 2 ^ 64 + v % 2 ^ 64) % 2 ^ 64 = (n * 128 + v) % 2 ^ 64
    rw [Nat.shiftLeft_eq]
    omega

/-- **The bytes of an offset before the last.** What is read is one less than what is left of the
offset, as the next byte adds one again. -/
theorem parseNegativeOffsetFrom_encodeOffsetMore {n r : ℕ} (hn : n < 128 ^ 8)
    (hr : (encodeOffsetMore n).length + r = 9) (h : pack.Has offset (encodeOffsetMore n)) :
    parseNegativeOffsetFrom pack offset 9 0 0
      = parseNegativeOffsetFrom pack offset r (encodeOffsetMore n).length (n - 1).toUInt64 := by
  induction n using Nat.strong_induction_on generalizing r with
  | h n ih =>
    rw [encodeOffsetMore] at h hr ⊢
    by_cases hzero : n = 0
    · rw [if_pos hzero, List.length_nil, Nat.zero_add] at hr
      rw [if_pos hzero, hzero, hr]
      rfl
    · rw [if_neg hzero] at h hr ⊢
      rw [List.length_append, List.length_singleton] at hr ⊢
      obtain ⟨hmore, hval⟩ := offsetMore_of_ge ((n - 1) % 128) (Nat.mod_lt _ (by decide))
      have hlt := h.lt_filesize (List.append_ne_nil_of_right_ne_nil _ (List.cons_ne_nil _ _))
      have hfirst := ih ((n - 1) / 128) (by omega) (by omega) (r := r + 1) (by omega) h.append_left
      rw [hfirst, parseNegativeOffsetFrom,
        if_neg (fun hpast => absurd hpast.2 (Nat.not_le.mpr hlt)),
        h.append_right.byteAt]
      simp only [ok_bind]
      rw [if_pos hmore, hval, next_offset (by omega), Nat.div_add_mod']

/-- **Every offset is read as it was written.** -/
theorem parseNegativeOffset_encodeOffset {n : ℕ} (hn : n < 2 ^ 63)
    (h : pack.Has offset (encodeOffset n)) :
    parseNegativeOffset pack offset = .ok ((n : ℤ), (encodeOffset n).length) := by
  have hdiv : n / 128 < 128 ^ 8 := Nat.div_lt_of_lt_mul (by omega)
  have hlen := length_encodeOffsetMore_le hdiv
  obtain ⟨hmore, hval⟩ := offsetMore_of_lt (n % 128) (Nat.mod_lt _ (by decide))
  have hlt := h.lt_filesize (List.append_ne_nil_of_right_ne_nil _ (List.cons_ne_nil _ _))
  obtain ⟨r, hr⟩ : ∃ r, (encodeOffsetMore (n / 128)).length + (r + 1) = 9 :=
    ⟨8 - (encodeOffsetMore (n / 128)).length, by omega⟩
  rw [parseNegativeOffset, parseNegativeOffsetFrom_encodeOffsetMore hdiv hr h.append_left,
    parseNegativeOffsetFrom, if_neg (fun hpast => absurd hpast.2 (Nat.not_le.mpr hlt)),
    h.append_right.byteAt]
  simp only [ok_bind]
  rw [if_neg (not_not.mpr hmore), hval, next_offset hdiv, Nat.div_add_mod',
    encodeOffset, List.length_append, List.length_singleton]
  have hint : n.toUInt64.toBitVec.toInt = n := by
    have hnat : n.toUInt64.toBitVec.toNat = n := Nat.mod_eq_of_lt (by omega)
    rw [BitVec.toInt_eq_toNat_of_lt (by omega), hnat]
  rw [hint]
  rfl

/-! ## Headers -/

/-- **Parsing a header inverts the encoding**: what stands at the position is the type and the size
that git wrote there, in as many bytes, and so is the distance of a delta to its base. -/
structure ParsesBack (pack : Pack) (offset deltaOffset type size negoffset : ℕ) : Prop where
  hdr : gotPackParseObjectTypeAndSize pack offset = .ok
    { offset, tslen := (encodeTypeAndSize type size).length, type := type.toUInt8,
      size := size.toUInt64 }
  offset : parseNegativeOffset pack deltaOffset
    = .ok ((negoffset : ℤ), (encodeOffset negoffset).length)

/-- **Parsing inverts the encoding if and only if the size survives.** Type, length of the header
and the offset of a base always do. The size is put together by shifts of an `int`, as that of a
delta is, although it has 64 bits. -/
theorem parsesBack_iff {deltaOffset type size negoffset : ℕ} (htype : type < 8)
    (hsize : size < 2 ^ 64)
    (hneg : negoffset < 2 ^ 63) (hhdr : pack.Has offset (encodeTypeAndSize type size))
    (hofs : pack.Has deltaOffset (encodeOffset negoffset)) :
    ParsesBack pack offset deltaOffset type size negoffset ↔ SurvivesHeader size := by
  rw [← parsedObjectSize_eq_iff hsize]
  have hparse := gotPackParseObjectTypeAndSize_encode htype hsize hhdr
  constructor
  · intro h
    exact (ObjHdr.mk.inj (Except.ok.inj (hparse.symm.trans h.hdr))).2.2.2
  · intro h
    exact ⟨by rw [hparse, h], parseNegativeOffset_encodeOffset hneg hofs⟩

/-! The header of a delta of 300 bytes, whose base is 1000 bytes before it. -/

/-- A delta header of two bytes, followed by an offset of two. -/
def deltaHeaderPack : Pack where
  file := encodeTypeAndSize 6 300 ++ encodeOffset 1000
  mapped := true

theorem parsesBack_deltaHeaderPack :
    ParsesBack deltaHeaderPack 0 (0 + (encodeTypeAndSize 6 300).length) 6 300 1000
      ↔ SurvivesHeader 300 :=
  have h : deltaHeaderPack.Has 0 (encodeTypeAndSize 6 300 ++ encodeOffset 1000) := List.prefix_rfl
  parsesBack_iff (by decide) (by decide) (by decide) h.append_left h.append_right

/-! The header of a blob of 2 GB. -/

/-- A blob of 2^31 bytes, the first size the shifts of an `int` get wrong. -/
def hugeBlobPack : Pack where
  file := encodeTypeAndSize 3 (2 ^ 31) ++ encodeOffset 1
  mapped := true

/-- Its header is not read back as the one it was made from. -/
theorem not_parsesBack_hugeBlobPack :
    gotPackParseObjectTypeAndSize hugeBlobPack 0 = .ok
        { offset := 0, tslen := (encodeTypeAndSize 3 (2 ^ 31)).length, type := GOT_OBJ_TYPE_BLOB,
          size := 0xffffffff80000000 }
      ∧ ¬ParsesBack hugeBlobPack 0 (0 + (encodeTypeAndSize 3 (2 ^ 31)).length) 3 (2 ^ 31) 1 := by
  have h : hugeBlobPack.Has 0 (encodeTypeAndSize 3 (2 ^ 31) ++ encodeOffset 1) := List.prefix_rfl
  have hparse := gotPackParseObjectTypeAndSize_encode (by decide) (by decide) h.append_left
  have hsize : parsedObjectSize (2 ^ 31) = 0xffffffff80000000 := by decide
  rw [hsize] at hparse
  refine ⟨hparse, fun hback => ?_⟩
  have heq := (ObjHdr.mk.inj (Except.ok.inj (hparse.symm.trans hback.hdr))).2.2.2
  exact absurd heq (by decide)

end Got

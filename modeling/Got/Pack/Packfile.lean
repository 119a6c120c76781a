import Got.Error
import Got.Lib.Records
import Got.Memory

/-!
# Pack files

Every object in a pack file begins with a header of variable length: three
bits of type, and the size of the object in groups of seven bits, after four
bits in the first byte. If the object is a delta, what follows the header
names its base, by a distance back in the same file or by an object id.

A pack file is mapped into memory where that is possible and read
otherwise. The two ways differ where the file ends too early: `read` comes
back short, which its callers take for a bad pack file, while an access
behind the mapping has no meaning.
-/

namespace Got

open Records

/-- Number of bytes in an object id. -/
def SHA1_DIGEST_LENGTH : ℕ := 20

/-- An object id, as the bytes of its digest. -/
abbrev Sha1 := { b : Bytes // b.length = SHA1_DIGEST_LENGTH }

theorem length_zeros :
    (List.replicate SHA1_DIGEST_LENGTH (0 : UInt8)).length = SHA1_DIGEST_LENGTH :=
  List.length_replicate

/-- An object id, taken from as many bytes. -/
def oidOf (b : Bytes) : Sha1 :=
  ⟨(b ++ List.replicate SHA1_DIGEST_LENGTH 0).take SHA1_DIGEST_LENGTH, by simp⟩

theorem record_sha1 : Record SHA1_DIGEST_LENGTH (Subtype.val : Sha1 → Bytes) oidOf where
  length_enc id := id.2
  dec_enc id := Subtype.ext (List.take_left' id.2)
  enc_dec _ hb := List.take_left' hb

/-! ## Object types -/

def GOT_OBJ_TYPE_COMMIT : UInt8 := 1
def GOT_OBJ_TYPE_TREE : UInt8 := 2
def GOT_OBJ_TYPE_BLOB : UInt8 := 3
def GOT_OBJ_TYPE_TAG : UInt8 := 4
def GOT_OBJ_TYPE_OFFSET_DELTA : UInt8 := 6
def GOT_OBJ_TYPE_REF_DELTA : UInt8 := 7

/-- Plain object types are the final delta base. -/
def isPlainType (type : UInt8) : Bool :=
  type = GOT_OBJ_TYPE_COMMIT ∨ type = GOT_OBJ_TYPE_TREE ∨ type = GOT_OBJ_TYPE_BLOB
    ∨ type = GOT_OBJ_TYPE_TAG

/-! ## Access to the file -/

/-- An open pack file. -/
structure Pack where
  /-- The content of the file. -/
  file : Bytes
  /-- Whether the file is mapped into memory. -/
  mapped : Bool

namespace Pack

/-- The size of the pack file. -/
def filesize (pack : Pack) : ℕ := pack.file.length

/-- What becomes of an access behind the end of the file. -/
def pastEnd (pack : Pack) : GotErr := if pack.mapped then .outOfMap else .badPackfile

/-- The byte at a position. -/
def byteAt (pack : Pack) (i : ℕ) : Except GotErr UInt8 :=
  match pack.file[i]? with
  | some b => .ok b
  | none => .error pack.pastEnd

/-- The object id at a position. -/
def idAt (pack : Pack) (i : ℕ) : Except GotErr Sha1 :=
  let b := (pack.file.drop i).take SHA1_DIGEST_LENGTH
  if h : b.length = SHA1_DIGEST_LENGTH then .ok ⟨b, h⟩ else .error pack.pastEnd

end Pack

/-! ## Object headers -/

def GOT_PACK_OBJ_SIZE_MORE : UInt8 := 0x80
def GOT_PACK_OBJ_SIZE0_TYPE_MASK : UInt8 := 0x70
def GOT_PACK_OBJ_SIZE0_TYPE_MASK_SHIFT : UInt8 := 4
def GOT_PACK_OBJ_SIZE0_VAL_MASK : UInt8 := 0x0f
def GOT_PACK_OBJ_SIZE_VAL_MASK : UInt8 := 0x7f
def GOT_PACK_OBJ_DELTA_OFF_MORE : UInt8 := 0x80
def GOT_PACK_OBJ_DELTA_OFF_VAL_MASK : UInt8 := 0x7f

/-- **Where an object is and what its header says**: the arguments which the
functions that resolve deltas pass on to each other. -/
structure ObjHdr where
  /-- The position of the header in the pack file. -/
  offset : ℕ
  /-- The number of bytes of the header. -/
  tslen : ℕ
  type : UInt8
  /-- The size of the object or of the delta stream, inflated. -/
  size : UInt64
  deriving DecidableEq, Repr

/-- The loop of `got_pack_parse_object_type_and_size`: `n` more bytes fit a
size of 64 bits. -/
def parseTypeAndSizeFrom (pack : Pack) (offset : ℕ) :
    ℕ → ℕ → UInt8 → UInt64 → Except GotErr ObjHdr
  | 0, _, _, _ => .error .noSpace
  | n + 1, i, t, s => do
    let sizeN ← pack.byteAt (offset + i)
    let t := if i = 0
      then (sizeN &&& GOT_PACK_OBJ_SIZE0_TYPE_MASK) >>> GOT_PACK_OBJ_SIZE0_TYPE_MASK_SHIFT
      else t
    let s := if i = 0
      then (sizeN &&& GOT_PACK_OBJ_SIZE0_VAL_MASK).toUInt64
      else s ||| shiftByte (sizeN &&& GOT_PACK_OBJ_SIZE_VAL_MASK) (4 + 7 * (i - 1))
    if sizeN &&& GOT_PACK_OBJ_SIZE_MORE ≠ 0 then parseTypeAndSizeFrom pack offset n (i + 1) t s
    else return { offset, tslen := i + 1, type := t, size := s }

/-- Read the header of the object at a position. -/
def gotPackParseObjectTypeAndSize (pack : Pack) (offset : ℕ) : Except GotErr ObjHdr :=
  if pack.filesize ≤ offset then .error .packOffset
  else parseTypeAndSizeFrom pack offset 10 0 0 0

/-- The loop of `parse_negative_offset`: `n` more bytes fit an offset of 64
bits, and `o` is the offset so far. A mapped file is checked at every round,
but for the position at which the field begins. -/
def parseNegativeOffsetFrom (pack : Pack) (deltaOffset : ℕ) :
    ℕ → ℕ → UInt64 → Except GotErr (ℤ × ℕ)
  | 0, _, _ => .error .noSpace
  | n + 1, i, o => do
    if pack.mapped ∧ pack.filesize ≤ deltaOffset then throw .packOffset
    let offN ← pack.byteAt (deltaOffset + i)
    let v := (offN &&& GOT_PACK_OBJ_DELTA_OFF_VAL_MASK).toUInt64
    let o := if i = 0 then v else ((o + 1) <<< 7) + v
    if offN &&& GOT_PACK_OBJ_DELTA_OFF_MORE ≠ 0 then
      parseNegativeOffsetFrom pack deltaOffset n (i + 1) o
    else return (o.toBitVec.toInt, i + 1)

/-- Read the distance of an offset delta to its base, and the number of bytes
it takes. -/
def parseNegativeOffset (pack : Pack) (deltaOffset : ℕ) : Except GotErr (ℤ × ℕ) :=
  parseNegativeOffsetFrom pack deltaOffset 9 0 0

/-- The position of the base of an offset delta, which must be in the same
pack file. -/
def gotPackParseOffsetDelta (pack : Pack) (offset tslen : ℕ) : Except GotErr (ℕ × ℕ) := do
  let (negoffset, negofflen) ← parseNegativeOffset pack (offset + tslen)
  let baseOffset : ℤ := offset - negoffset
  if baseOffset ≤ 0 then throw .badPackfile
  return (baseOffset.toNat, negofflen)

end Got

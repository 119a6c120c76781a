import Got.Error
import Got.Memory

/-!
# Delta streams

A delta stream describes one byte string, the result, in terms of another,
the base. It begins with the size of the base and the size of the result,
each a little-endian base-128 number, and goes on with instructions: copy a
range of the base, or insert bytes that follow in the stream.

This module is the code that reads such a stream: `parseSize`,
`parseOpcode` and the two loops that execute the instructions, one on
memory (`gotDeltaApplyInMem`) and one on files (`gotDeltaApply`).

The source walks the stream with a pointer `p` and a counter `remain`; here
both are the list of the bytes from `p` on, so `remain` is its length.
-/

namespace Got

/-- Shortest delta stream there is. -/
def GOT_DELTA_STREAM_LENGTH_MIN : ℕ := 4

def GOT_DELTA_SIZE_VAL_MASK : UInt8 := 0x7f
def GOT_DELTA_SIZE_SHIFT : ℕ := 7
def GOT_DELTA_SIZE_MORE : UInt8 := 0x80
def GOT_DELTA_BASE_COPY : UInt8 := 0x80
def GOT_DELTA_COPY_OFF1 : UInt8 := 0x01
def GOT_DELTA_COPY_OFF2 : UInt8 := 0x02
def GOT_DELTA_COPY_OFF3 : UInt8 := 0x04
def GOT_DELTA_COPY_OFF4 : UInt8 := 0x08
def GOT_DELTA_COPY_LEN1 : UInt8 := 0x10
def GOT_DELTA_COPY_LEN2 : UInt8 := 0x20
def GOT_DELTA_COPY_LEN3 : UInt8 := 0x40
def GOT_DELTA_COPY_DEFAULT_OFF : ℕ := 0
def GOT_DELTA_COPY_DEFAULT_LEN : ℕ := 0x10000

/-! ## Reading the stream -/

/-- Fetch another (required) byte from the delta stream. -/
def nextDeltaByte : Bytes → Except GotErr Bytes
  | _ :: b :: rest => .ok (b :: rest)
  | _ => .error .badDelta

/-- The contribution of the `i`-th byte of a size field. -/
def sizeBits (b : UInt8) (i : ℕ) : UInt64 :=
  shiftByte (b &&& GOT_DELTA_SIZE_VAL_MASK) (GOT_DELTA_SIZE_SHIFT * i)

/-- The loop of `parse_size`: the size read so far, and the stream, which
ends at the last byte of the field. -/
def parseSizeFrom : ℕ → UInt64 → Bytes → Except GotErr (UInt64 × Bytes)
  | _, _, [] => .error .badDelta
  | i, size, b :: rest =>
    -- we do not support size values which don't fit in 64 bit
    if i > 9 then .error .noSpace
    else
      let size := size ||| sizeBits b i
      if b &&& GOT_DELTA_SIZE_MORE = 0 then .ok (size, b :: rest)
      else
        match rest with
        | [] => .error .badDelta
        | _ :: _ => parseSizeFrom (i + 1) size rest

/-- Read a size field. -/
def parseSize (p : Bytes) : Except GotErr (UInt64 × Bytes) := parseSizeFrom 0 0 p

/-- Read the two size fields at the beginning of the stream. -/
def parseDeltaSizes (p : Bytes) : Except GotErr (UInt64 × UInt64 × Bytes) := do
  let (baseSize, p) ← parseSize p
  let p ← nextDeltaByte p
  let (resultSize, p) ← parseSize p
  return (baseSize, resultSize, p)

/-- The two size fields of a stream. -/
def gotDeltaGetSizes (deltaBuf : Bytes) : Except GotErr (UInt64 × UInt64) :=
  if deltaBuf.length < GOT_DELTA_STREAM_LENGTH_MIN then .error .badDelta
  else do
    let (baseSize, resultSize, _) ← parseDeltaSizes deltaBuf
    return (baseSize, resultSize)

/-- One operand byte of a copy instruction: present if its flag is set in
the opcode, and then or-ed into the operand at its place. -/
def opcodeByte (opcode flag : UInt8) (shift : ℕ) (acc : ℕ) (p : Bytes) :
    Except GotErr (ℕ × Bytes) :=
  if opcode &&& flag = 0 then .ok (acc, p)
  else do
    let p ← nextDeltaByte p
    return (acc ||| ((p.headD 0).toNat <<< shift), p)

/-- Read the operands of a copy instruction. The stream is left at the last
operand byte. -/
def parseOpcode (p : Bytes) : Except GotErr (ℕ × ℕ × Bytes) := do
  let opcode := p.headD 0
  let (o, p) ← opcodeByte opcode GOT_DELTA_COPY_OFF1 0 0 p
  let (o, p) ← opcodeByte opcode GOT_DELTA_COPY_OFF2 8 o p
  let (o, p) ← opcodeByte opcode GOT_DELTA_COPY_OFF3 16 o p
  let (o, p) ← opcodeByte opcode GOT_DELTA_COPY_OFF4 24 o p
  let (l, p) ← opcodeByte opcode GOT_DELTA_COPY_LEN1 0 0 p
  let (l, p) ← opcodeByte opcode GOT_DELTA_COPY_LEN2 8 l p
  let (l, p) ← opcodeByte opcode GOT_DELTA_COPY_LEN3 16 l p
  return (if o = 0 then GOT_DELTA_COPY_DEFAULT_OFF else o,
    if l = 0 then GOT_DELTA_COPY_DEFAULT_LEN else l, p)

/-! ## Executing the stream

The loops carry the output so far, and end with it and with the error that
stopped them, if any: the length of the output is compared with the declared
size in either case. The stream gets shorter with every instruction, so its
length is enough fuel. -/

/-- The instruction loop of `got_delta_apply_in_mem`. An operand out of
range returns at once; the error is the one the caller would see. -/
def deltaLoopInMem (baseBuf : Block) (baseBufsz maxoutsize : ℕ) :
    ℕ → Bytes → Bytes → Bytes × Except GotErr Unit
  | 0, _, out => (out, .ok ())
  | _ + 1, [], out => (out, .ok ())
  | fuel + 1, c :: p, out =>
    if c &&& GOT_DELTA_BASE_COPY ≠ 0 then
      match parseOpcode (c :: p) with
      | .error e => (out, .error e)
      | .ok (offset, len, q) =>
        if baseBufsz < offset + len ∨ out.length + len > maxoutsize then (out, .error .badDelta)
        else deltaLoopInMem baseBuf baseBufsz maxoutsize fuel q.tail
          (out ++ baseBuf.read offset len)
    else
      let len := c.toNat
      if len = 0 then (out, .error .badDelta)
      else
        match nextDeltaByte (c :: p) with
        | .error e => (out, .error e)
        | .ok q =>
          if q.length < len ∨ out.length + len > maxoutsize then (out, .error .badDelta)
          else deltaLoopInMem baseBuf baseBufsz maxoutsize fuel (q.drop len) (out ++ q.take len)

/-- The end of both functions that apply a delta. -/
def deltaResult (resultSize : UInt64) (r : Bytes × Except GotErr Unit) : Except GotErr Bytes :=
  if r.1.length ≠ resultSize.toNat then .error .badDelta
  else
    match r.2 with
    | .error e => .error e
    | .ok () => .ok r.1

/-- What both functions that apply a delta do around their loop. -/
def applyDelta (loop : ℕ → Bytes → Bytes → Bytes × Except GotErr Unit) (deltaBuf : Bytes) :
    Except GotErr Bytes :=
  if deltaBuf.length < GOT_DELTA_STREAM_LENGTH_MIN then .error .badDelta
  else do
    let (_, resultSize, p) ← parseDeltaSizes deltaBuf
    deltaResult resultSize <|
      match nextDeltaByte p with
      | .error e => ([], .error e)
      | .ok p => loop p.length p []

/-- **Apply a delta in memory.** The base is a block of which `baseBufsz`
bytes may be read, and at most `maxoutsize` bytes are written. The base size
which the stream declares is parsed and not looked at. -/
def gotDeltaApplyInMem (baseBuf : Block) (baseBufsz : ℕ) (deltaBuf : Bytes) (maxoutsize : ℕ) :
    Except GotErr Bytes :=
  applyDelta (deltaLoopInMem baseBuf baseBufsz maxoutsize) deltaBuf

/-- Copy a range of a file. The chunks of 2048 bytes in which the source
reads all arrive if the file reaches to the end of the range, and the one
that crosses the end of the file fails. -/
def copyFromBase (baseFile : Bytes) (offset size : ℕ) : Except GotErr Bytes :=
  if offset + size ≤ baseFile.length then .ok ((baseFile.drop offset).take size)
  else .error .io

/-- Copy bytes of the delta stream, and move past them. -/
def copyFromDelta (p : Bytes) (len : ℕ) : Except GotErr (Bytes × Bytes) :=
  if p.length < len then .error .badDelta else .ok (p.take len, p.drop len)

/-- The instruction loop of `got_delta_apply`. -/
def deltaLoop (baseFile : Bytes) : ℕ → Bytes → Bytes → Bytes × Except GotErr Unit
  | 0, _, out => (out, .ok ())
  | _ + 1, [], out => (out, .ok ())
  | fuel + 1, c :: p, out =>
    if c &&& GOT_DELTA_BASE_COPY ≠ 0 then
      match parseOpcode (c :: p) with
      | .error e => (out, .error e)
      | .ok (offset, len, q) =>
        match copyFromBase baseFile offset len with
        | .error e => (out, .error e)
        | .ok data => deltaLoop baseFile fuel q.tail (out ++ data)
    else
      let len := c.toNat
      if len = 0 then (out, .error .badDelta)
      else
        match nextDeltaByte (c :: p) with
        | .error e => (out, .error e)
        | .ok q =>
          match copyFromDelta q len with
          | .error e => (out, .error e)
          | .ok (data, q) => deltaLoop baseFile fuel q (out ++ data)

/-- **Apply a delta to a file.** What a copy instruction may read is the
whole file, and the output has no limit but the declared result size. -/
def gotDeltaApply (baseFile : Bytes) (deltaBuf : Bytes) : Except GotErr Bytes :=
  applyDelta (deltaLoop baseFile) deltaBuf

end Got

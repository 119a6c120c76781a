import Got.CString
import Got.Pack.Packfile

/-!
# Receiving a pack

The data of a pack come over a connection, with a checksum of all of them at the end. How
much there is to come is not known, so the last bytes that were read are kept back: they
are what the checksum is to be compared with, unless something follows.

They come in pieces of any size. If the pack has a side band there is a packet for each
piece, and there are other packets in between; otherwise a buffer is filled again and
again. A piece which is shorter than a checksum is put behind what was kept back before,
and as much of this as is too much for the buffer is mixed in.

A checksum context is the bytes that were mixed into it here.
-/

namespace Got

/-- Bytes at a position of a block. -/
def Block.writeAt (b : Block) (off : ℕ) (data : Bytes) : Block := fun i =>
  if i < off then b i else data.getD (i - off) (b i)

/-- `memmove` to the start of a block. -/
def Block.memmove (b : Block) (src n : ℕ) : Block := b.write (b.read src n)

namespace FetchPack

def GOT_FETCH_PKTMAX : ℕ := 65536

def GOT_SIDEBAND_PACKFILE_DATA : UInt8 := 1
def GOT_SIDEBAND_PROGRESS_INFO : UInt8 := 2
def GOT_SIDEBAND_ERROR_INFO : UInt8 := 3

/-! ## The checksum window -/

/-- **What `fetch_pack` has in hand** while it receives a pack. -/
structure PackState where
  /-- What was mixed into `sha1_ctx`. -/
  sha1Ctx : Bytes
  sha1Buf : Block
  sha1BufLen : ℕ
  /-- What was written to the temporary pack file. -/
  packfile : Bytes

/-- At first there is something in the buffer that was never written. -/
def PackState.init (stack : Block) : PackState := ⟨[], stack, 0, []⟩

/-- Shift bytes out at the front of the buffer to make room for others. -/
def shiftOut (r : ℕ) : ℕ → Bytes → Block → Bytes × Block × ℕ
  | 0, ctx, buf => (ctx, buf, 0)
  | len + 1, ctx, buf =>
    if len + 1 + r > SHA1_DIGEST_LENGTH then shiftOut r len (ctx ++ [buf 0]) (buf.memmove 1 1)
    else (ctx, buf, len + 1)

/-- **What is done with the bytes of one read.** -/
def PackState.update (s : PackState) (buf : Bytes) : PackState :=
  let packfile := s.packfile ++ buf
  if buf.length < SHA1_DIGEST_LENGTH then
    if s.sha1BufLen < SHA1_DIGEST_LENGTH then
      let (ctx, sha1Buf, len) := shiftOut buf.length s.sha1BufLen s.sha1Ctx s.sha1Buf
      ⟨ctx, sha1Buf.writeAt len buf, len + buf.length, packfile⟩
    else
      ⟨s.sha1Ctx ++ s.sha1Buf.read 0 buf.length,
        (s.sha1Buf.memmove buf.length (s.sha1BufLen - buf.length)).writeAt
          (s.sha1BufLen - buf.length) buf, s.sha1BufLen, packfile⟩
  else
    ⟨s.sha1Ctx ++ s.sha1Buf.read 0 s.sha1BufLen ++ buf.take (buf.length - SHA1_DIGEST_LENGTH),
      s.sha1Buf.write (buf.drop (buf.length - SHA1_DIGEST_LENGTH)), SHA1_DIGEST_LENGTH, packfile⟩

/-! ## Packets -/

/-- **A packet** with its side-band channel. A packet of no length ends the pack. -/
structure Packet where
  channel : UInt8
  data : Bytes

/-- `isprint` in the C locale. -/
def isprint (c : UInt8) : Bool := 0x20 ≤ c && c ≤ 0x7e

/-- **`fetch_progress`**, which looks at as much of the message as it will send. -/
def fetchProgress (buf : Bytes) : Except GotErr Unit :=
  if (buf.take (16384 - 16)).all (fun c => isprint c || isspace c) then .ok ()
  else .error (.badPacket "non-printable progress message received from server")

/-- `fetch_error` -/
def fetchError (buf : Bytes) : GotErr :=
  if (buf.take 1023).all isprint then .fetchFailed (buf.take 1023)
  else .badPacket "non-printable error message received from server"

/-- The loop of `fetch_pack` with side bands. -/
def readSidebands : List Packet → PackState → Except GotErr PackState
  | [], s => .ok s
  | p :: rest, s =>
    if p.data.length + 1 > GOT_FETCH_PKTMAX - 5 then .error (.badPacket "bad packet length")
    else if p.channel = GOT_SIDEBAND_PACKFILE_DATA then readSidebands rest (s.update p.data)
    else if p.channel = GOT_SIDEBAND_PROGRESS_INFO then do
      fetchProgress p.data
      readSidebands rest s
    else if p.channel = GOT_SIDEBAND_ERROR_INFO then .error (fetchError p.data)
    else if p.channel = 0x41 then
      -- the server responds with an ACK after all
      if p.data.take 3 = [0x43, 0x4b, 0x20] then readSidebands rest s
      else .error (.badPacket "unexpected message from server")
    else .error (.badPacket "unknown side-band received from server")

/-- The loop of `fetch_pack` without a side band: the buffer is filled until there is
nothing more to read. -/
def readPlain : ℕ → Bytes → PackState → PackState
  | 0, _, s => s
  | fuel + 1, stream, s =>
    if stream = [] then s
    else readPlain fuel (stream.drop GOT_FETCH_PKTMAX) (s.update (stream.take GOT_FETCH_PKTMAX))

/-- **What comes over the connection.** -/
inductive Input
  | sidebands (packets : List Packet)
  | plain (stream : Bytes)

/-- **The part of `fetch_pack` that receives the pack.** -/
def receive (stack : Block) : Input → Except GotErr PackState
  | .sidebands packets => readSidebands packets (.init stack)
  | .plain stream => .ok (readPlain stream.length stream (.init stack))

/-- **The end of `fetch_pack`**, which compares the checksum. -/
def finish (sha1 : Bytes → Sha1) (s : PackState) : Except GotErr Sha1 :=
  if s.sha1BufLen ≠ SHA1_DIGEST_LENGTH
      ∨ memcmp (sha1 s.sha1Ctx).val (s.sha1Buf.read 0 s.sha1BufLen) ≠ .eq
  then .error (.badPackfileMsg "pack file checksum mismatch")
  else .ok (sha1 s.sha1Ctx)

/-! ## What was read -/

/-- The pieces of a stream. -/
def pieces : ℕ → Bytes → List Bytes
  | 0, _ => []
  | fuel + 1, stream =>
    if stream = [] then []
    else stream.take GOT_FETCH_PKTMAX :: pieces fuel (stream.drop GOT_FETCH_PKTMAX)

/-- **The data that were read**, one read after the other. -/
def Input.reads : Input → List Bytes
  | .sidebands packets =>
    (packets.filter (fun p => p.channel = GOT_SIDEBAND_PACKFILE_DATA)).map Packet.data
  | .plain stream => pieces stream.length stream

end FetchPack

end Got

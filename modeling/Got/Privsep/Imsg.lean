import Got.Endian
import Got.Pack.Packfile

/-!
# Messages between processes

Repositories are read by processes without privileges. They send what they find to the main
process, in messages of a bounded size.

A socket does not keep messages apart: a read ends anywhere. So what is known of a stream of bytes
is which messages are complete after each read (`ImsgBuf`). A header that tells a length which
cannot be one is no message; it stays where it is.

What is sent are structures of C, with integers in the order of the host. This is the order with
the lowest byte first.
-/

namespace Got

open Records

namespace Privsep

/-! ## Integers -/

/-- The lowest `w` bytes of a number, in the order of the host. -/
def hostBytes (w n : ℕ) : Bytes := (bigEndian w n).reverse

/-- The number which some bytes are to the host. -/
def hostNat (b : Bytes) : ℕ := idKey b.reverse

@[simp] theorem length_hostBytes (w n : ℕ) : (hostBytes w n).length = w := by
  rw [hostBytes, List.length_reverse, length_bigEndian]

/-- `size_t` -/
def sizeBytes (n : UInt64) : Bytes := hostBytes 8 n.toNat
/-- A size as the receiver of a message reads it. -/
def readSize (b : Bytes) : UInt64 := (hostNat b).toUInt64

/-- `int` -/
def intBytes (n : Int32) : Bytes := hostBytes 4 n.toUInt32.toNat
/-- An `int` as the receiver of a message reads it. -/
def readInt (b : Bytes) : Int32 := (hostNat b).toUInt32.toInt32

/-- `mode_t` -/
def modeBytes (n : UInt32) : Bytes := hostBytes 4 n.toNat
/-- A file mode as the receiver of a message reads it. -/
def readMode (b : Bytes) : UInt32 := (hostNat b).toUInt32

/-- `time_t` -/
def timeBytes (n : Int64) : Bytes := hostBytes 8 n.toUInt64.toNat
/-- A time as the receiver of a message reads it. -/
def readTime (b : Bytes) : Int64 := (hostNat b).toUInt64.toInt64

/-- A mode is received as it was sent. -/
theorem record_mode : Record 4 modeBytes readMode where
  length_enc n := length_hostBytes 4 n.toNat
  dec_enc n := by
    have h := record_be32.dec_enc n
    rw [readMode, hostNat, modeBytes, hostBytes, List.reverse_reverse]
    exact h
  enc_dec b hb := by
    have h := record_be32.enc_dec b.reverse (List.length_reverse.trans hb)
    rw [modeBytes, hostBytes]
    exact (congrArg List.reverse h).trans (List.reverse_reverse b)

/-- A size is received as it was sent. -/
theorem record_size : Record 8 sizeBytes readSize where
  length_enc n := length_hostBytes 8 n.toNat
  dec_enc n := by
    have h := record_be64.dec_enc n
    rw [readSize, hostNat, sizeBytes, hostBytes, List.reverse_reverse]
    exact h
  enc_dec b hb := by
    have h := record_be64.enc_dec b.reverse (List.length_reverse.trans hb)
    rw [sizeBytes, hostBytes]
    exact (congrArg List.reverse h).trans (List.reverse_reverse b)

/-- An `int` is received as it was sent. -/
theorem record_int : Record 4 intBytes readInt where
  length_enc n := length_hostBytes 4 n.toUInt32.toNat
  dec_enc n := (congrArg UInt32.toInt32 (record_mode.dec_enc n.toUInt32)).trans
    (Int32.toInt32_toUInt32 n)
  enc_dec b hb := by
    rw [intBytes, readInt, UInt32.toUInt32_toInt32]
    exact record_mode.enc_dec b hb

/-- A time is received as it was sent. -/
theorem record_time : Record 8 timeBytes readTime where
  length_enc n := length_hostBytes 8 n.toUInt64.toNat
  dec_enc n := (congrArg UInt64.toInt64 (record_size.dec_enc n.toUInt64)).trans
    (Int64.toInt64_toUInt64 n)
  enc_dec b hb := by
    rw [timeBytes, readTime, UInt64.toUInt64_toInt64]
    exact record_size.enc_dec b hb

/-! ## Messages -/

def MAX_IMSGSIZE : ℕ := 16384

/-- The size of `struct imsg_hdr`. -/
def IMSG_HEADER_SIZE : ℕ := 16

/-- The messages which are sent about objects. -/
inductive ImsgType
  | error
  | commit
  | commitLogmsg
  | tree
  | treeEntry
  | blob
  | tag
  | tagTagmsg
  /-- any other number -/
  | other
  deriving DecidableEq

/-- **A message**, without its header. -/
structure Imsg where
  type : ImsgType
  data : Bytes
  deriving DecidableEq

/-- What begins with a header: a message, unless the header does not tell a possible length. -/
abbrev Frame := Option Imsg

/-- **The receiving end**: the messages that are complete, and those which each further read
will complete. Behind the last of these the channel is closed. -/
structure ImsgBuf where
  frames : List Frame
  reads : List (List Frame)

/-- `imsg_compose`. The length is a number of 16 bits, and so is its sum with that of the header. -/
def imsgCompose (type : ImsgType) (data : Bytes) : Except GotErr Imsg :=
  let datalen := data.length % 2 ^ 16
  if datalen + IMSG_HEADER_SIZE ≤ MAX_IMSGSIZE then .ok ⟨type, data.take datalen⟩
  else .error (.errno .range)

/-! ## Receiving -/

/-- The size of `struct got_imsg_error`. -/
def sizeofImsgError : ℕ := 8

/-- The codes of `got_errors[]`. -/
def errorKnown (code : ℤ) : Bool := 0 ≤ code ∧ code ≤ 130 ∧ code ∉ [24, 25, 30, 95, 99]

/-- `got_error`, of a code that was received. -/
def gotError (code : ℤ) : GotErr := if errorKnown code then .received code else .aborted

/-- `recv_imsg_error` -/
def recvImsgError (data : Bytes) : GotErr :=
  if data.length ≠ sizeofImsgError then .privsepLen else gotError (readInt (data.take 4)).toInt

/-- **`got_privsep_recv_imsg`**, with the messages that are complete, and the reads. -/
def recvFrames (minDatalen : ℕ) : List Frame → List (List Frame) → Except GotErr (Imsg × ImsgBuf)
  | frame :: frames, reads =>
    match frame with
    | none => .error (.errno .range)
    | some imsg =>
      if imsg.data.length < minDatalen then .error .privsepLen
      else if imsg.type = .error then .error (recvImsgError imsg.data)
      else .ok (imsg, ⟨frames, reads⟩)
  | [], [] => .error .privsepPipe
  | [], frames :: reads => recvFrames minDatalen frames reads

/-- `got_privsep_recv_imsg` -/
def gotPrivsepRecvImsg (ibuf : ImsgBuf) (minDatalen : ℕ) : Except GotErr (Imsg × ImsgBuf) :=
  recvFrames minDatalen ibuf.frames ibuf.reads

/-- What is going to be received. -/
def ImsgBuf.stream (ibuf : ImsgBuf) : List Frame := ibuf.frames ++ ibuf.reads.flatten

/-! ## The next message -/

variable {ibuf : ImsgBuf} {imsg : Imsg} {rest : List Frame} {minDatalen : ℕ}

/-- **What one receive answers.** The first message of the stream, or the error of an end, of a
broken frame, of a short message, or the one the message carries. -/
theorem recvFrames_spec (minDatalen : ℕ) (frames : List Frame) (reads : List (List Frame)) :
    match frames ++ reads.flatten with
    | [] => recvFrames minDatalen frames reads = .error .privsepPipe
    | none :: _ => recvFrames minDatalen frames reads = .error (.errno .range)
    | some imsg :: rest => ∃ ibuf : ImsgBuf, ibuf.stream = rest ∧
        recvFrames minDatalen frames reads =
          if imsg.data.length < minDatalen then .error .privsepLen
          else if imsg.type = .error then .error (recvImsgError imsg.data)
          else .ok (imsg, ibuf) := by
  induction reads generalizing frames with
  | nil =>
    rw [List.flatten_nil, List.append_nil]
    cases frames with
    | nil => rfl
    | cons frame frames =>
      cases frame with
      | none => rfl
      | some imsg => exact ⟨⟨frames, []⟩, List.append_nil _, rfl⟩
  | cons b reads ih =>
    cases frames with
    | nil => exact ih b
    | cons frame frames =>
      cases frame with
      | none => rfl
      | some imsg => exact ⟨⟨frames, b :: reads⟩, rfl, rfl⟩

/-- **The next message** is received, however the reads cut the stream. -/
theorem gotPrivsepRecvImsg_cons (h : ibuf.stream = some imsg :: rest) (minDatalen : ℕ) :
    ∃ ibuf' : ImsgBuf, ibuf'.stream = rest ∧ gotPrivsepRecvImsg ibuf minDatalen =
      if imsg.data.length < minDatalen then .error .privsepLen
      else if imsg.type = .error then .error (recvImsgError imsg.data)
      else .ok (imsg, ibuf') := by
  have hspec := recvFrames_spec minDatalen ibuf.frames ibuf.reads
  rw [show ibuf.frames ++ ibuf.reads.flatten = some imsg :: rest from h] at hspec
  exact hspec

/-- The stream has ended. -/
theorem gotPrivsepRecvImsg_nil (h : ibuf.stream = []) :
    gotPrivsepRecvImsg ibuf minDatalen = .error .privsepPipe := by
  have hspec := recvFrames_spec minDatalen ibuf.frames ibuf.reads
  rw [show ibuf.frames ++ ibuf.reads.flatten = [] from h] at hspec
  exact hspec

/-- Here a length that is none is an error. -/
theorem gotPrivsepRecvImsg_none (h : ibuf.stream = none :: rest) :
    gotPrivsepRecvImsg ibuf minDatalen = .error (.errno .range) := by
  have hspec := recvFrames_spec minDatalen ibuf.frames ibuf.reads
  rw [show ibuf.frames ++ ibuf.reads.flatten = none :: rest from h] at hspec
  exact hspec

end Privsep

end Got

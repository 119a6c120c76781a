import Got.Error
import Got.Lib.ZStream
import Got.Memory

/-!
# Inflating into a buffer

`got_inflate_read`, `got_inflate_read_fd` and `got_inflate_read_mmap` are one loop, which
calls `inflate` until the output buffer is full or there is a reason to stop. They differ
in how the input buffer is filled when it is empty: from a file, from a file descriptor,
or with all that is left of a mapping – as far as its length fits into the 32 bits of
`avail_in`.

The end of the input is taken for the end of the stream. Of zlib nothing is assumed here;
what there is to a decompressor is said in `Decodes`, by how much of a stream and of the
data is left in each of its states.
-/

namespace Got

open ZStream

namespace Inflate

/-- **zlib's `inflate`**, for a stream. -/
structure Inflater (ζ : Type) extends Codec ζ UInt8 where
  init : ζ

def GOT_INFLATE_BUFSIZE : ℕ := 32768

/-- A number that is stored in a variable of type `uInt`. -/
def toUInt (n : ℕ) : ℕ := n % 2 ^ 32

/-- **`struct got_inflate_buf`**, with where its input comes from. The calls of `inflate`
are recorded. -/
structure InflateBuf (ζ σ : Type) where
  z : ζ
  nextIn : Bytes
  /-- What is in the output buffer, since it was last set. -/
  outbuf : Bytes
  inlen : ℕ
  outlen : ℕ
  haveMore : Bool
  /-- What was mixed into checksums, if there are any. -/
  csum : Option Bytes
  /-- How many bytes the present call has consumed. -/
  consumed : ℕ
  input : σ
  calls : List (Call UInt8)

/-- How an empty input buffer is filled: there may be nothing at the end of the
input. -/
abbrev Refill (σ : Type) : Type := (consumed inlen : ℕ) → σ → Except GotErr (Option (Bytes × σ))

/-- From a file. -/
def refillFile (e : GotErr) : Refill (Source UInt8) := fun _ inlen f =>
  match f.read inlen with
  | some r => .ok (some r)
  | none => if f.fails then .error e else .ok none

/-- **A part of a mapping**: `len` bytes from `offset` on. -/
structure Mapping where
  map : Bytes
  offset : ℕ
  len : ℕ

/-- From a mapping. The end is where there is no length, whether or not the present call
has consumed some of it. -/
def refillMmap : Refill Mapping := fun consumed _ m =>
  if m.len = 0 then .ok none
  else .ok (some ((m.map.drop (m.offset + consumed)).take (toUInt (m.len - consumed)), m))

variable {ζ σ : Type} (zlib : Inflater ζ) (refill : Refill σ)

namespace InflateBuf

/-- `avail_out` -/
def availOut (zb : InflateBuf ζ σ) : ℕ := toUInt zb.outlen - zb.outbuf.length

/-- A call of `inflate`. -/
def inflate (zb : InflateBuf ζ σ) : Ret × InflateBuf ζ σ :=
  let s := zlib.step zb.z .syncFlush zb.nextIn zb.availOut
  (s.ret, { zb with
    z := s.z
    nextIn := zb.nextIn.drop s.consumed
    outbuf := zb.outbuf ++ s.produced
    csum := zb.csum.map (· ++ zb.nextIn.take s.consumed)
    consumed := zb.consumed + s.consumed
    calls := zb.calls ++ [⟨.syncFlush, zb.nextIn.take s.consumed, s.produced, s.ret⟩] })

/-- The input buffer is filled if it is empty. -/
def fill (zb : InflateBuf ζ σ) : Except GotErr (Option (InflateBuf ζ σ)) :=
  if zb.nextIn = [] then
    match refill zb.consumed zb.inlen zb.input with
    | .error e => .error e
    | .ok none => .ok none
    | .ok (some (data, input)) => .ok (some { zb with nextIn := data, input := input })
  else .ok (some zb)

/-- The output buffer is set. -/
def start (zb : InflateBuf ζ σ) : InflateBuf ζ σ := { zb with outbuf := [], consumed := 0 }

end InflateBuf

/-- The loop. -/
def inflateLoop : ℕ → InflateBuf ζ σ → Except GotErr Ret × InflateBuf ζ σ
  | 0, zb => (.error .fuel, zb)
  | fuel + 1, zb =>
    match zb.fill refill with
    | .error e => (.error e, zb)
    | .ok none => (.ok .streamEnd, zb)
    | .ok (some zb) =>
      let r := zb.inflate zlib
      if r.1 = .ok ∧ 0 < r.2.availOut then inflateLoop fuel r.2 else (.ok r.1, r.2)

/-- **Inflate into the output buffer.** -/
def inflateRead (fuel : ℕ) (zb : InflateBuf ζ σ) : Option GotErr × InflateBuf ζ σ :=
  let r := inflateLoop zlib refill fuel zb.start
  match r.1 with
  | .error e => (some e, r.2)
  | .ok .ok => (none, { r.2 with haveMore := true })
  | .ok .bufError => (none, { r.2 with haveMore := true })
  | .ok .streamEnd => (none, { r.2 with haveMore := false })
  | .ok .failed => (some .decompression, r.2)

/-- `got_inflate_read` -/
def gotInflateRead (fuel : ℕ) (zb : InflateBuf ζ (Source UInt8)) :
    Option GotErr × InflateBuf ζ (Source UInt8) := inflateRead zlib (refillFile .io) fuel zb

/-- `got_inflate_read_fd` -/
def gotInflateReadFd (fuel : ℕ) (zb : InflateBuf ζ (Source UInt8)) :
    Option GotErr × InflateBuf ζ (Source UInt8) :=
  inflateRead zlib (refillFile (.errno .io)) fuel zb

/-- `got_inflate_read_mmap` -/
def gotInflateReadMmap (fuel : ℕ) (zb : InflateBuf ζ Mapping) :
    Option GotErr × InflateBuf ζ Mapping := inflateRead zlib refillMmap fuel zb

/-- `got_inflate_init` -/
def gotInflateInit (bufsize : ℕ) (csum : Option Bytes) (input : σ) : InflateBuf ζ σ where
  z := zlib.init
  nextIn := []
  outbuf := []
  inlen := bufsize
  outlen := bufsize
  haveMore := false
  csum := csum
  consumed := 0
  input := input
  calls := []

/-- The mapping after what was consumed. -/
def Mapping.skip (consumed : ℕ) (m : Mapping) : Mapping :=
  { m with offset := m.offset + consumed, len := m.len - consumed }

/-! ## What a decompressor does -/

/-- **What is left of a stream and of its data** in a state. A call takes the next bytes
of the stream, whatever may come behind it, and gives the next bytes of the data. It
returns `Z_STREAM_END` at the end of the stream; `Z_OK` if it has got anywhere; and
`Z_BUF_ERROR` if it has not, which needs a reason. The end of the stream is its checksum,
which stands behind all data. -/
structure Inflater.Decodes (zlib : Inflater ζ) (left : ζ → Bytes → Bytes → Prop) : Prop where
  checksum : ∀ {z data}, left z [] data → data = []
  step : ∀ {z stream data}, left z stream data → stream ≠ [] →
    ∀ {input behind}, input <+: stream ++ behind → ∀ availOut,
    ∃ stream' data',
      stream = input.take (zlib.step z .syncFlush input availOut).consumed ++ stream'
      ∧ data = (zlib.step z .syncFlush input availOut).produced ++ data'
      ∧ left (zlib.step z .syncFlush input availOut).z stream' data'
      ∧ (stream' = [] → (zlib.step z .syncFlush input availOut).ret = .streamEnd)
      ∧ (stream' ≠ [] →
        ((zlib.step z .syncFlush input availOut).ret = .ok
          ∧ stream'.length + data'.length < stream.length + data.length)
        ∨ ((zlib.step z .syncFlush input availOut).ret = .bufError
          ∧ stream' = stream ∧ data' = data ∧ (input = [] ∨ availOut = 0)))

/-- **A stream and its data.** -/
def Inflater.Decompresses (zlib : Inflater ζ) (stream data : Bytes) : Prop :=
  ∃ left, zlib.Decodes left ∧ left zlib.init stream data

/-! ## What is fed -/

/-- **An input from which a stream can be read**: `holds nextIn input consumed stream`
says that what is left of the stream is what comes next, and is there to be read. -/
structure Feeds (refill : Refill σ) (skip : ℕ → σ → σ) (holds : Bytes → σ → ℕ → Bytes → Prop) :
    Prop where
  refill : ∀ {input consumed inlen stream}, holds [] input consumed stream → stream ≠ [] →
    0 < inlen → ∃ data input', refill consumed inlen input = .ok (some (data, input'))
      ∧ data ≠ [] ∧ holds data input' consumed stream
  ahead : ∀ {nextIn input consumed stream}, holds nextIn input consumed stream →
    ∃ behind, nextIn <+: stream ++ behind
  eat : ∀ {nextIn input consumed stream} k, nextIn ≠ [] →
    holds nextIn input consumed (nextIn.take k ++ stream) → k ≤ nextIn.length →
    holds (nextIn.drop k) input (consumed + k) stream
  next : ∀ {nextIn input consumed stream}, holds nextIn input consumed stream →
    holds nextIn (skip consumed input) 0 stream

section Read

variable {zlib : Inflater ζ} {refill : Refill σ} {zb zb' : InflateBuf ζ σ} {fuel : ℕ}

/-- Filling the input buffer changes nothing else. -/
theorem fill_eq_some (h : zb.fill refill = .ok (some zb')) :
    zb' = { zb with nextIn := zb'.nextIn, input := zb'.input } := by
  unfold InflateBuf.fill at h
  split at h
  · split at h
    · cases h
    · cases h
    · cases h
      rfl
  · cases h
    rfl

/-- **A read from a stream** that is not at its end. -/
theorem Feeds.fill {skip : ℕ → σ → σ} {holds : Bytes → σ → ℕ → Bytes → Prop} {stream : Bytes}
    (h : Feeds refill skip holds) (hzb : holds zb.nextIn zb.input zb.consumed stream)
    (hstream : stream ≠ []) (hinlen : 0 < zb.inlen) :
    ∃ zb', zb.fill refill = .ok (some zb') ∧ zb'.nextIn ≠ []
      ∧ holds zb'.nextIn zb'.input zb.consumed stream := by
  unfold InflateBuf.fill
  by_cases hnext : zb.nextIn = []
  · rw [hnext] at hzb
    obtain ⟨data, input, hrefill, hdata, hholds⟩ := h.refill hzb hstream hinlen
    rw [if_pos hnext, hrefill]
    exact ⟨_, rfl, hdata, hholds⟩
  · rw [if_neg hnext]
    exact ⟨zb, rfl, hnext, hzb⟩

/-- **How far a call has got**: what it has eaten of the input and given out. -/
structure Moved (zb zb' : InflateBuf ζ σ) (eaten out : Bytes) : Prop where
  outbuf : zb'.outbuf = zb.outbuf ++ out
  consumed : zb'.consumed = zb.consumed + eaten.length
  csum : zb'.csum = zb.csum.map (· ++ eaten)
  inlen : zb'.inlen = zb.inlen
  outlen : zb'.outlen = zb.outlen

/-- Two moves of the stream one after the other take the input of both and give the output of both.
-/
theorem Moved.trans {zb'' : InflateBuf ζ σ} {eaten out eaten' out' : Bytes}
    (h : Moved zb zb' eaten out) (h' : Moved zb' zb'' eaten' out') :
    Moved zb zb'' (eaten ++ eaten') (out ++ out') where
  outbuf := by rw [h'.outbuf, h.outbuf, List.append_assoc]
  consumed := by rw [h'.consumed, h.consumed, List.length_append, Nat.add_assoc]
  csum := by
    rw [h'.csum, h.csum, Option.map_map]
    exact congrArg (Option.map · _) (funext fun b => List.append_assoc b eaten eaten')
  inlen := h'.inlen.trans h.inlen
  outlen := h'.outlen.trans h.outlen

theorem moved_fill (h : zb.fill refill = .ok (some zb')) : Moved zb zb' [] [] := by
  rw [fill_eq_some h]
  refine ⟨(List.append_nil _).symm, rfl, ?_, rfl, rfl⟩
  show zb.csum = zb.csum.map (· ++ [])
  simp

/-- A call of `inflate` moves on by what it consumed and gives what it produced. -/
theorem moved_inflate (zb : InflateBuf ζ σ) :
    Moved zb (zb.inflate zlib).2
      (zb.nextIn.take (zlib.step zb.z .syncFlush zb.nextIn zb.availOut).consumed)
      (zlib.step zb.z .syncFlush zb.nextIn zb.availOut).produced where
  outbuf := rfl
  consumed := by
    rw [List.length_take, Nat.min_eq_left (zlib.consumed_le _ _ _ _)]
    rfl
  csum := rfl
  inlen := rfl
  outlen := rfl

/-- **The rule of the loop**: what calls and reads preserve, it preserves. -/
theorem inflateLoop_invariant {P : InflateBuf ζ σ → Prop}
    (hinflate : ∀ zb, P zb → P (zb.inflate zlib).2)
    (hfill : ∀ zb zb', P zb → zb.fill refill = .ok (some zb') → P zb') (h : P zb) :
    P (inflateLoop zlib refill fuel zb).2 := by
  induction fuel generalizing zb with
  | zero => exact h
  | succ fuel ih =>
    rw [inflateLoop]
    split
    · exact h
    · exact h
    next zb' hzb' =>
    have hcall := hinflate zb' (hfill zb zb' h hzb')
    dsimp only
    split
    · exact ih hcall
    · exact hcall

/-- **The output stays in the window.** -/
theorem outbuf_inflateLoop_le (h : zb.outbuf.length ≤ toUInt zb.outlen) :
    (inflateLoop zlib refill fuel zb).2.outbuf.length
      ≤ toUInt (inflateLoop zlib refill fuel zb).2.outlen := by
  refine @inflateLoop_invariant _ _ zlib refill zb fuel
    (fun zb => zb.outbuf.length ≤ toUInt zb.outlen) (fun zb h => ?_) (fun zb zb' h hfill => ?_) h
  · have hproduced := zlib.produced_le zb.z .syncFlush zb.nextIn zb.availOut
    show (zb.outbuf ++ _).length ≤ toUInt zb.outlen
    rw [List.length_append]
    unfold InflateBuf.availOut at hproduced ⊢
    omega
  · rw [fill_eq_some hfill]
    exact h

/-- **The loop on a stream** comes to its end or fills the output buffer. -/
theorem Feeds.inflateLoop {skip : ℕ → σ → σ} {holds : Bytes → σ → ℕ → Bytes → Prop}
    {left : ζ → Bytes → Bytes → Prop} {stream data : Bytes} (hfeed : Feeds refill skip holds)
    (hdec : zlib.Decodes left) (hleft : left zb.z stream data) (hstream : stream ≠ [])
    (hholds : holds zb.nextIn zb.input zb.consumed stream) (hinlen : 0 < zb.inlen)
    (hroom : 0 < zb.availOut) (hfuel : stream.length + data.length < fuel) :
    ∃ ret zb' eaten out stream' data', inflateLoop zlib refill fuel zb = (.ok ret, zb')
      ∧ stream = eaten ++ stream' ∧ data = out ++ data' ∧ Moved zb zb' eaten out
      ∧ left zb'.z stream' data' ∧ holds zb'.nextIn zb'.input zb'.consumed stream'
      ∧ stream'.length + data'.length < stream.length + data.length
      ∧ ((ret = .streamEnd ∧ stream' = [])
        ∨ (ret = .ok ∧ stream' ≠ [] ∧ zb'.availOut = 0)) := by
  induction fuel generalizing zb stream data with
  | zero => exact absurd hfuel (Nat.not_lt_zero _)
  | succ fuel ih =>
    obtain ⟨zb1, hfill, hnext, hholds1⟩ := hfeed.fill hholds hstream hinlen
    have hmove1 := moved_fill hfill
    have hz : zb1.z = zb.z := by rw [fill_eq_some hfill]
    have hroom1 : 0 < zb1.availOut := by
      unfold InflateBuf.availOut at hroom ⊢
      rw [hmove1.outlen, hmove1.outbuf, List.append_nil]
      exact hroom
    obtain ⟨behind, hahead⟩ := hfeed.ahead hholds1
    rw [← hz] at hleft
    obtain ⟨stream', data', hsplit, hout, hleft', hend, hmore⟩ :=
      hdec.step hleft hstream hahead zb1.availOut
    have hmove := hmove1.trans (@moved_inflate _ _ zlib zb1)
    rw [List.nil_append, List.nil_append] at hmove
    have hholds' : holds (zb1.inflate zlib).2.nextIn (zb1.inflate zlib).2.input
        (zb1.inflate zlib).2.consumed stream' := by
      have heat := hfeed.eat _ hnext (hsplit ▸ hholds1)
        (zlib.consumed_le zb1.z .syncFlush zb1.nextIn zb1.availOut)
      rw [show zb.consumed = zb1.consumed from hmove1.consumed.symm] at heat
      exact heat
    rw [Inflate.inflateLoop, hfill]
    dsimp only
    by_cases hnil : stream' = []
    · -- the stream has ended
      have hret : (zb1.inflate zlib).1 = .streamEnd := hend hnil
      rw [if_neg (by rw [hret]; exact fun h => by cases h.1), hret]
      refine ⟨_, _, _, _, stream', data', rfl, hsplit, hout, hmove, hleft', hholds', ?_,
        Or.inl ⟨rfl, hnil⟩⟩
      have hpos := List.length_pos_iff.mpr hstream
      have hlen := congrArg List.length hout
      rw [List.length_append] at hlen
      rw [hnil, List.length_nil]
      omega
    obtain ⟨hret, hless⟩ | ⟨-, -, -, hreason⟩ := hmore hnil
    · have hret : (zb1.inflate zlib).1 = .ok := hret
      by_cases hfull : 0 < (zb1.inflate zlib).2.availOut
      · rw [if_pos ⟨hret, hfull⟩]
        obtain ⟨ret, zb', eaten, out, stream'', data'', hloop, hsplit', hout', hmove', hrest⟩ :=
          ih hleft' hnil hholds' (hmove.inlen ▸ hinlen) hfull (by omega)
        refine ⟨ret, zb', _, _, stream'', data'', hloop, ?_, ?_, hmove.trans hmove', hrest.1,
          hrest.2.1, Nat.lt_trans hrest.2.2.1 hless, hrest.2.2.2⟩
        · rw [List.append_assoc, ← hsplit', ← hsplit]
        · rw [List.append_assoc, ← hout', ← hout]
      · rw [if_neg fun h => hfull h.2, hret]
        exact ⟨_, _, _, _, stream', data', rfl, hsplit, hout, hmove, hleft', hholds', hless,
          Or.inr ⟨rfl, hnil, Nat.eq_zero_of_not_pos hfull⟩⟩
    · -- there is input, and there is space
      exact hreason.elim (fun h => absurd h hnext) fun h => absurd h (Nat.ne_of_gt hroom1)

/-- **A call on a stream**: it has more to do as long as the stream is not at its end,
and has filled the output buffer then. -/
theorem Feeds.inflateRead {skip : ℕ → σ → σ} {holds : Bytes → σ → ℕ → Bytes → Prop}
    {left : ζ → Bytes → Bytes → Prop} {stream data : Bytes} (hfeed : Feeds refill skip holds)
    (hdec : zlib.Decodes left) (hleft : left zb.z stream data) (hstream : stream ≠ [])
    (hholds : holds zb.nextIn zb.input 0 stream) (hinlen : 0 < zb.inlen)
    (hroom : 0 < toUInt zb.outlen) (hfuel : stream.length + data.length < fuel) :
    ∃ zb' eaten stream' data', inflateRead zlib refill fuel zb = (none, zb')
      ∧ stream = eaten ++ stream' ∧ data = zb'.outbuf ++ data'
      ∧ zb'.consumed = eaten.length ∧ zb'.csum = zb.csum.map (· ++ eaten)
      ∧ zb'.inlen = zb.inlen ∧ zb'.outlen = zb.outlen
      ∧ left zb'.z stream' data' ∧ holds zb'.nextIn zb'.input zb'.consumed stream'
      ∧ stream'.length + data'.length < stream.length + data.length
      ∧ ((zb'.haveMore = false ∧ stream' = [])
        ∨ (zb'.haveMore = true ∧ stream' ≠ [] ∧ zb'.outbuf.length = toUInt zb.outlen)) := by
  obtain ⟨ret, zb', eaten, out, stream', data', hloop, hsplit, hout, hmove, hleft', hholds', hless,
    hend⟩ := @Feeds.inflateLoop _ _ zlib refill zb.start fuel _ _ _ _ _ hfeed hdec hleft hstream
      hholds hinlen hroom hfuel
  have hbuf : zb'.outbuf = out := hmove.outbuf
  have hconsumed : zb'.consumed = eaten.length := hmove.consumed.trans (Nat.zero_add _)
  unfold Inflate.inflateRead
  rw [hloop]
  obtain ⟨rfl, hnil⟩ | ⟨rfl, hnil, hfull⟩ := hend
  · exact ⟨_, eaten, stream', data', rfl, hsplit, hbuf ▸ hout, hconsumed, hmove.csum, hmove.inlen,
      hmove.outlen, hleft', hholds', hless, Or.inl ⟨rfl, hnil⟩⟩
  · refine ⟨_, eaten, stream', data', rfl, hsplit, hbuf ▸ hout, hconsumed, hmove.csum, hmove.inlen,
      hmove.outlen, hleft', hholds', hless, Or.inr ⟨rfl, hnil, ?_⟩⟩
    have hle := @outbuf_inflateLoop_le _ _ zlib refill zb.start fuel (Nat.zero_le _)
    rw [hloop] at hle
    unfold InflateBuf.availOut at hfull
    rw [← show toUInt zb'.outlen = toUInt zb.outlen from congrArg toUInt hmove.outlen]
    exact Nat.le_antisymm hle (Nat.le_of_sub_eq_zero hfull)

end Read

/-! ## Files and mappings -/

/-- **A file feeds** what it contains, however it is cut. -/
theorem feeds_file (e : GotErr) (behind : Bytes) :
    Feeds (refillFile e) (fun _ f => f)
      fun nextIn f _ stream => nextIn ++ f.content = stream ++ behind where
  refill := by
    intro f consumed inlen stream h hstream hinlen
    have hne : f.content ≠ [] := by
      rw [List.nil_append] at h
      rw [h]
      exact List.append_ne_nil_of_left_ne_nil hstream behind
    unfold refillFile
    split
    · next r hr =>
      refine ⟨r.1, r.2, rfl, Source.ne_nil_of_read hinlen hr, ?_⟩
      rw [← Source.content_of_read hr]
      exact h
    · next hr => exact absurd (Source.content_of_read_none hr) hne
  ahead h := ⟨behind, h ▸ List.prefix_append _ _⟩
  eat := by
    intro nextIn f _ stream k _ h _
    rw [← List.take_append_drop k nextIn, List.append_assoc, List.append_assoc] at h
    rw [List.take_append_drop] at h
    exact List.append_cancel_left h
  next h := h

/-- **A mapping feeds** what its length says, as far as that fits into `avail_in`. Once
it was read there is nothing more to come. -/
theorem feeds_mmap :
    Feeds refillMmap Mapping.skip fun nextIn m consumed stream =>
      stream <+: nextIn ∨ (nextIn = [] ∧ consumed = 0 ∧ m.len ≠ 0
        ∧ stream <+: (m.map.drop m.offset).take (toUInt m.len)) where
  refill := by
    intro m consumed inlen stream h hstream _
    obtain h | ⟨-, rfl, hlen, h⟩ := h
    · exact absurd (List.prefix_nil.mp h) hstream
    · refine ⟨_, m, if_neg hlen, fun hnil => ?_, Or.inl h⟩
      rw [Nat.add_zero, Nat.sub_zero] at hnil
      rw [hnil] at h
      exact hstream (List.prefix_nil.mp h)
  ahead := by
    intro nextIn m consumed stream h
    obtain ⟨behind, rfl⟩ | ⟨rfl, -⟩ := h
    · exact ⟨behind, List.prefix_rfl⟩
    · exact ⟨[], List.nil_prefix⟩
  eat := by
    intro nextIn m consumed stream k hne h hk
    obtain ⟨behind, hahead⟩ := h.resolve_right fun h => hne h.1
    refine Or.inl ⟨behind, ?_⟩
    rw [List.append_assoc] at hahead
    exact List.append_cancel_left (hahead.trans (List.take_append_drop k nextIn).symm)
  next := by
    intro nextIn m consumed stream h
    obtain h | ⟨hnil, rfl, hlen, h⟩ := h
    · exact Or.inl h
    · exact Or.inr ⟨hnil, rfl, hlen, h⟩

end Inflate

end Got

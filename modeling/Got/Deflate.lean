import Got.Error
import Got.Lib.ZStream
import Got.Memory

/-!
# Deflating files

`got_deflate_to_file` compresses a file. It goes round two loops, of which the inner
one, `got_deflate_read`, fills the input buffer whenever it is empty and calls
`deflate` until the output buffer is full, and the outer one writes the output buffer
out. At the end of the file `deflate` is told so, as often as it takes until it has no
more output.

Of zlib nothing is assumed but what a `Deflater` is: each call keeps to its buffers,
and the end of the stream is only reported when there is no more input. What holds
however the calls, the reads and the writes go is the invariant `Fed`, and what a run
has done is put together in `gotDeflateToFile_spec`.

All of this would also hold of a loop that gives up whenever the output buffer is full. That this
one does not is a matter of zlib too: if each call does what the manual says (`Deflater.Works`), a
run ends without an error.
-/

namespace Got

open ZStream

namespace Deflate

/-- **zlib's `deflate`**, for a stream. It returns `Z_STREAM_END` only when called with
`Z_FINISH`. -/
structure Deflater (ζ : Type) extends Codec ζ UInt8 where
  init : ζ
  not_streamEnd : ∀ z input availOut, (step z .noFlush input availOut).ret ≠ .streamEnd

def GOT_DEFLATE_BUFSIZE : ℕ := 8192

/-- **`struct got_deflate_buf`**, with the file that is read. The two buffers are of the
same size. The calls of `deflate` are recorded. -/
structure DeflateBuf (ζ : Type) where
  z : ζ
  nextIn : Bytes
  /-- What is in the output buffer. -/
  outbuf : Bytes
  bufsize : ℕ
  haveMore : Bool
  infile : Source UInt8
  calls : List (Call UInt8)

variable {ζ : Type} (zlib : Deflater ζ)

namespace DeflateBuf

/-- A call of `deflate`. -/
def deflate (zb : DeflateBuf ζ) (flush : Flush) : Ret × DeflateBuf ζ :=
  let s := zlib.step zb.z flush zb.nextIn (zb.bufsize - zb.outbuf.length)
  (s.ret, { zb with
    z := s.z
    nextIn := zb.nextIn.drop s.consumed
    outbuf := zb.outbuf ++ s.produced
    calls := zb.calls ++ [⟨flush, zb.nextIn.take s.consumed, s.produced, s.ret⟩] })

/-- The input buffer is filled if it is empty. There is nothing at the end of the
file. -/
def fill (zb : DeflateBuf ζ) : Option (DeflateBuf ζ) :=
  if zb.nextIn = [] then
    (zb.infile.read zb.bufsize).map fun r => { zb with nextIn := r.1, infile := r.2 }
  else some zb

end DeflateBuf

/-- The loop of `got_deflate_read`. -/
def deflateLoop : ℕ → DeflateBuf ζ → Except GotErr Ret × DeflateBuf ζ
  | 0, zb => (.error .fuel, zb)
  | fuel + 1, zb =>
    match zb.fill with
    | none =>
      if zb.infile.fails then (.error .io, zb)
      else
        let r := zb.deflate zlib .finish
        (.ok r.1, r.2)
    | some zb =>
      let r := zb.deflate zlib .noFlush
      if r.1 = .ok ∧ r.2.outbuf.length < r.2.bufsize then deflateLoop fuel r.2
      else (.ok r.1, r.2)

/-- **`got_deflate_read`**: the output buffer is filled. -/
def gotDeflateRead (fuel : ℕ) (zb : DeflateBuf ζ) : Option GotErr × DeflateBuf ζ :=
  let r := deflateLoop zlib fuel { zb with outbuf := [] }
  match r.1 with
  | .error e => (some e, r.2)
  | .ok .ok => (none, { r.2 with haveMore := true })
  | .ok .streamEnd => (none, { r.2 with haveMore := false })
  | .ok _ => (some .compression, r.2)

/-- **The state of `got_deflate_to_file`**, with the file that is written. -/
structure ToFile (ζ : Type) where
  zb : DeflateBuf ζ
  outfile : Bytes
  outlen : ℕ

/-- The output buffer is written out, if there is something in it. The file takes
`capacity` bytes. -/
def ToFile.write (capacity : ℕ) (st : ToFile ζ) : Option GotErr × ToFile ζ :=
  if st.zb.outbuf = [] then (none, st)
  else if capacity < st.outfile.length + st.zb.outbuf.length then
    (some .io, { st with outfile := (st.outfile ++ st.zb.outbuf).take capacity })
  else
    (none, { st with
      outfile := st.outfile ++ st.zb.outbuf
      outlen := st.outlen + st.zb.outbuf.length })

/-- The loop of `got_deflate_to_file`. -/
def toFileLoop (capacity fuel : ℕ) : ℕ → ToFile ζ → Option GotErr × ToFile ζ
  | 0, st => (some .fuel, st)
  | n + 1, st =>
    let r := gotDeflateRead zlib fuel st.zb
    match r.1 with
    | some e => (some e, { st with zb := r.2 })
    | none =>
      let w := { st with zb := r.2 }.write capacity
      match w.1 with
      | some e => (some e, w.2)
      | none => if w.2.zb.haveMore then toFileLoop capacity fuel n w.2 else (none, w.2)

/-- **`got_deflate_to_file`** -/
def gotDeflateToFile (capacity fuel : ℕ) (infile : Source UInt8) : Option GotErr × ToFile ζ :=
  toFileLoop zlib capacity fuel fuel
    { zb :=
        { z := zlib.init
          nextIn := []
          outbuf := []
          bufsize := GOT_DEFLATE_BUFSIZE
          haveMore := false
          infile := infile
          calls := [] }
      outfile := []
      outlen := 0 }

/-! ## What is consumed and produced -/

section Run

variable {zlib : Deflater ζ} {content written : Bytes} {zb zb' : DeflateBuf ζ} {flush : Flush}
  {fuel : ℕ}

/-- **What holds between calls**, where `content` is all that can be read: what was
consumed, what is in the input buffer, and what is still in the file are the content,
in this order; and `deflate` was only told to finish when all was consumed. -/
structure Fed (content : Bytes) (zb : DeflateBuf ζ) : Prop where
  split : consumedBy zb.calls ++ (zb.nextIn ++ zb.infile.content) = content
  finish : ∀ pre c post, zb.calls = pre ++ c :: post → c.flush = .finish →
    consumedBy pre = content

/-- **The output buffer holds** what was produced and is not written out. -/
def Holds (written : Bytes) (zb : DeflateBuf ζ) : Prop :=
  producedBy zb.calls = written ++ zb.outbuf

theorem Holds.deflate (h : Holds written zb) : Holds written (zb.deflate zlib flush).2 := by
  show producedBy (zb.calls ++ [_]) = written ++ (zb.outbuf ++ _)
  rw [producedBy_concat, h, List.append_assoc]

/-- **A call keeps what was fed**, if it is only told to finish when there is no
input. -/
theorem Fed.deflate (h : Fed content zb)
    (hflush : flush = .finish → zb.nextIn ++ zb.infile.content = []) :
    Fed content (zb.deflate zlib flush).2 where
  split := by
    show consumedBy (zb.calls ++ [_]) ++ (zb.nextIn.drop _ ++ zb.infile.content) = content
    rw [consumedBy_concat, List.append_assoc, ← List.append_assoc _ _ zb.infile.content,
      List.take_append_drop]
    exact h.split
  finish pre c post hcalls hc := by
    have hcalls : zb.calls ++ [_] = pre ++ c :: post := hcalls
    cases post using List.reverseRecOn with
    | nil =>
      -- the call is this one
      obtain ⟨rfl, hlast⟩ := List.append_inj' hcalls rfl
      cases hlast
      rw [← h.split, hflush hc, List.append_nil]
    | append_singleton post last =>
      rw [← List.cons_append, ← List.append_assoc] at hcalls
      exact h.finish pre c post (List.append_inj' hcalls rfl).1 hc

/-- **So does a read.** It changes nothing else. -/
theorem Fed.fill (h : Fed content zb) (hfill : zb.fill = some zb') :
    Fed content zb' ∧ zb'.calls = zb.calls ∧ zb'.outbuf = zb.outbuf := by
  unfold DeflateBuf.fill at hfill
  split at hfill
  · next hnext =>
    obtain ⟨r, hr, rfl⟩ := Option.map_eq_some_iff.mp hfill
    refine ⟨⟨?_, h.finish⟩, rfl, rfl⟩
    rw [← h.split, hnext, Source.content_of_read hr]
    rfl
  · cases hfill
    exact ⟨h, rfl, rfl⟩

/-- There is nothing to read at the end of the file. -/
theorem fill_eq_none (hfill : zb.fill = none) : zb.nextIn ++ zb.infile.content = [] := by
  unfold DeflateBuf.fill at hfill
  split at hfill
  · next hnext => rw [hnext, Source.content_of_read_none (Option.map_eq_none_iff.mp hfill)]; rfl
  · cases hfill

/-- **The inner loop.** What it returns is what the last call has returned. -/
theorem Fed.deflateLoop (h : Fed content zb) (hout : Holds written zb) :
    Fed content (deflateLoop zlib fuel zb).2 ∧ Holds written (deflateLoop zlib fuel zb).2 ∧
      ∀ ret, (deflateLoop zlib fuel zb).1 = .ok ret →
        ∃ pre c, (deflateLoop zlib fuel zb).2.calls = pre ++ [c] ∧ c.ret = ret
          ∧ (ret = .streamEnd → c.flush = .finish) := by
  induction fuel generalizing zb with
  | zero => exact ⟨h, hout, fun ret hret => by cases hret⟩
  | succ fuel ih =>
    rw [Deflate.deflateLoop]
    split
    · next hfill =>
      split
      · exact ⟨h, hout, fun ret hret => by cases hret⟩
      · refine ⟨h.deflate fun _ => fill_eq_none hfill, hout.deflate, fun ret hret => ?_⟩
        cases hret
        exact ⟨zb.calls, _, rfl, rfl, fun _ => rfl⟩
    · next zb' hfill =>
      obtain ⟨hfed, hcalls, hbuf⟩ := h.fill hfill
      have hcall : Fed content (zb'.deflate zlib .noFlush).2 :=
        hfed.deflate fun hf => by cases hf
      have hout' : Holds written (zb'.deflate zlib .noFlush).2 := by
        refine Holds.deflate ?_
        unfold Holds
        rw [hcalls, hbuf]
        exact hout
      dsimp only
      split
      · exact ih hcall hout'
      · refine ⟨hcall, hout', fun ret hret => ?_⟩
        cases hret
        refine ⟨zb'.calls, _, rfl, rfl, fun hend => ?_⟩
        exact absurd hend (zlib.not_streamEnd _ _ _)

/-- **A call of `got_deflate_read`**, when all that was produced is written out. -/
theorem Fed.gotDeflateRead (h : Fed content zb) (hwritten : producedBy zb.calls = written) :
    Fed content (gotDeflateRead zlib fuel zb).2 ∧ Holds written (gotDeflateRead zlib fuel zb).2 ∧
      ((gotDeflateRead zlib fuel zb).1 = none → ¬(gotDeflateRead zlib fuel zb).2.haveMore →
        ∃ pre c, (gotDeflateRead zlib fuel zb).2.calls = pre ++ [c] ∧ c.ret = .streamEnd
          ∧ c.flush = .finish) := by
  have hempty : Holds written { zb with outbuf := [] } := by
    show producedBy zb.calls = written ++ []
    rw [List.append_nil, hwritten]
  have hzb : Fed content { zb with outbuf := [] } := ⟨h.split, h.finish⟩
  obtain ⟨hfed, hout, hlast⟩ := @Fed.deflateLoop _ zlib _ _ _ fuel hzb hempty
  rw [Deflate.gotDeflateRead]
  dsimp only
  split
  · exact ⟨hfed, hout, fun hnone => by cases hnone⟩
  · exact ⟨⟨hfed.split, hfed.finish⟩, hout, fun _ hmore => absurd rfl hmore⟩
  · next hend =>
    obtain ⟨pre, c, hcalls, hret, hflush⟩ := hlast _ hend
    exact ⟨⟨hfed.split, hfed.finish⟩, hout, fun _ _ => ⟨pre, c, hcalls, hret, hflush rfl⟩⟩
  · exact ⟨hfed, hout, fun hnone => by cases hnone⟩

/-- **Writing out** keeps the file in step with what was produced. -/
theorem Holds.write {capacity : ℕ} {st : ToFile ζ} (h : Holds st.outfile st.zb)
    (hlen : st.outlen = st.outfile.length) :
    (st.write capacity).2.zb = st.zb ∧ (st.write capacity).2.outfile <+: producedBy st.zb.calls ∧
      ((st.write capacity).1 = none → producedBy st.zb.calls = (st.write capacity).2.outfile
        ∧ (st.write capacity).2.outlen = (st.write capacity).2.outfile.length) := by
  unfold ToFile.write
  split
  · next hempty =>
    have hsame : producedBy st.zb.calls = st.outfile := by
      rw [h, hempty, List.append_nil]
    exact ⟨rfl, by rw [hsame], fun _ => ⟨hsame, hlen⟩⟩
  · split
    · refine ⟨rfl, ?_, fun hnone => by cases hnone⟩
      rw [h]
      exact List.take_prefix _ _
    · refine ⟨rfl, by rw [h], fun _ => ⟨h, ?_⟩⟩
      show st.outlen + st.zb.outbuf.length = (st.outfile ++ st.zb.outbuf).length
      rw [hlen, List.length_append]

/-- **What a run leaves behind**, however it ends. -/
structure Ended (content : Bytes) (err : Option GotErr) (st : ToFile ζ) : Prop where
  fed : Fed content st.zb
  written : st.outfile <+: producedBy st.zb.calls
  success : err = none → producedBy st.zb.calls = st.outfile ∧ st.outlen = st.outfile.length
    ∧ ∃ pre c, st.zb.calls = pre ++ [c] ∧ c.ret = .streamEnd ∧ c.flush = .finish

/-- **The outer loop**, when all that was produced is written out. -/
theorem toFileLoop_ended {capacity n : ℕ} {st : ToFile ζ} (h : Fed content st.zb)
    (hwritten : producedBy st.zb.calls = st.outfile) (hlen : st.outlen = st.outfile.length) :
    Ended content (toFileLoop zlib capacity fuel n st).1
      (toFileLoop zlib capacity fuel n st).2 := by
  induction n generalizing st with
  | zero => exact ⟨h, by rw [toFileLoop, hwritten], fun hnone => by cases hnone⟩
  | succ n ih =>
    obtain ⟨hfed, hout, hlast⟩ := @Fed.gotDeflateRead _ zlib _ _ _ fuel h hwritten
    rw [toFileLoop]
    dsimp only
    split
    · refine ⟨hfed, ?_, fun hnone => by cases hnone⟩
      show st.outfile <+: producedBy (Deflate.gotDeflateRead zlib fuel st.zb).2.calls
      rw [hout]
      exact List.prefix_append _ _
    next hok =>
    obtain ⟨hzb, hpre, hsync⟩ := @Holds.write _ capacity
      { st with zb := (Deflate.gotDeflateRead zlib fuel st.zb).2 } hout hlen
    split
    · refine ⟨by rw [hzb]; exact hfed, by rw [hzb]; exact hpre, fun hnone => by cases hnone⟩
    next hwrite =>
    obtain ⟨hsame, hlen'⟩ := hsync hwrite
    split
    · exact ih (by rw [hzb]; exact hfed) (by rw [hzb]; exact hsame) hlen'
    · next hmore =>
      refine ⟨by rw [hzb]; exact hfed, by rw [hzb]; exact hpre, fun _ => ?_⟩
      rw [hzb] at hmore ⊢
      exact ⟨hsame, hlen', hlast hok hmore⟩

end Run

/-! ## That it ends -/

/-- **zlib comes to an end.** `rank` is a bound for how many more calls can succeed, in a
state and with some bytes of input still to come; a call which can do something lowers
it. -/
def Deflater.Ends (zlib : Deflater ζ) (rank : ζ → ℕ → ℕ) : Prop :=
  ∀ z flush input availOut rest, 0 < availOut → (input ≠ [] ∨ flush = .finish) →
    (zlib.step z flush input availOut).ret = .ok →
    rank (zlib.step z flush input availOut).z
        (input.length - (zlib.step z flush input availOut).consumed + rest)
      < rank z (input.length + rest)

section Ends

variable {zlib : Deflater ζ} {rank : ζ → ℕ → ℕ} {zb zb' : DeflateBuf ζ} {flush : Flush}
  {fuel : ℕ}

/-- The rank of the state that a run is in. -/
def DeflateBuf.left (rank : ζ → ℕ → ℕ) (zb : DeflateBuf ζ) : ℕ :=
  rank zb.z (zb.nextIn.length + zb.infile.content.length)

/-- One call of `deflate` that makes progress leaves less to do. -/
theorem left_deflate (h : zlib.Ends rank) (hroom : zb.outbuf.length < zb.bufsize)
    (hinput : zb.nextIn ≠ [] ∨ flush = .finish) (hret : (zb.deflate zlib flush).1 = .ok) :
    (zb.deflate zlib flush).2.left rank < zb.left rank := by
  have hlt := h zb.z flush zb.nextIn (zb.bufsize - zb.outbuf.length) zb.infile.content.length
    (Nat.sub_pos_of_lt hroom) hinput hret
  unfold DeflateBuf.left DeflateBuf.deflate
  dsimp only
  rw [List.length_drop]
  exact hlt

/-- Refilling the input changes neither what is left nor the output buffer. -/
theorem left_fill (hsize : 0 < zb.bufsize) (hfill : zb.fill = some zb') :
    zb'.left rank = zb.left rank ∧ zb'.nextIn ≠ [] ∧ zb'.outbuf = zb.outbuf
      ∧ zb'.bufsize = zb.bufsize := by
  unfold DeflateBuf.fill at hfill
  split at hfill
  · next hnext =>
    obtain ⟨r, hr, rfl⟩ := Option.map_eq_some_iff.mp hfill
    refine ⟨?_, Source.ne_nil_of_read hsize hr, rfl, rfl⟩
    unfold DeflateBuf.left
    rw [hnext, Source.content_of_read hr, List.length_append, List.length_nil, Nat.zero_add]
  · next hnext =>
    cases hfill
    exact ⟨rfl, hnext, rfl, rfl⟩

/-- **The inner loop ends**, and has got further if there is more to do. -/
theorem deflateLoop_ends (h : zlib.Ends rank) (hroom : zb.outbuf.length < zb.bufsize)
    (hfuel : zb.left rank < fuel) :
    (deflateLoop zlib fuel zb).1 ≠ .error .fuel
      ∧ ((deflateLoop zlib fuel zb).1 = .ok .ok →
        (deflateLoop zlib fuel zb).2.left rank < zb.left rank)
      ∧ (deflateLoop zlib fuel zb).2.bufsize = zb.bufsize := by
  induction fuel generalizing zb with
  | zero => exact absurd hfuel (Nat.not_lt_zero _)
  | succ fuel ih =>
    rw [deflateLoop]
    split
    · split
      · exact ⟨fun hf => (by cases hf), fun hf => (by cases hf), rfl⟩
      · refine ⟨fun hf => (by cases hf), fun hret => ?_, rfl⟩
        exact left_deflate h hroom (Or.inr rfl) (Except.ok.inj hret)
    next zb' hfill =>
    obtain ⟨hleft, hnext, hbuf, hsize⟩ :=
      @left_fill _ rank _ _ (Nat.lt_of_le_of_lt (Nat.zero_le _) hroom) hfill
    have hroom' : zb'.outbuf.length < zb'.bufsize := by rw [hbuf, hsize]; exact hroom
    dsimp only
    split
    · next hmore =>
      have hlt := left_deflate h hroom' (Or.inl hnext) hmore.1
      obtain ⟨hne, hlower, hsame⟩ := ih hmore.2 (by omega)
      exact ⟨hne, fun hret => by have := hlower hret; omega, hsame.trans hsize⟩
    · refine ⟨fun hf => (by cases hf), fun hret => ?_, hsize⟩
      rw [← hleft]
      exact left_deflate h hroom' (Or.inl hnext) (Except.ok.inj hret)

/-- **`got_deflate_read` ends.** With enough fuel it answers, and each successful call that asks to
be called again leaves less to do. -/
theorem gotDeflateRead_ends (h : zlib.Ends rank) (hsize : 0 < zb.bufsize)
    (hfuel : zb.left rank < fuel) :
    (gotDeflateRead zlib fuel zb).1 ≠ some .fuel
      ∧ ((gotDeflateRead zlib fuel zb).1 = none → (gotDeflateRead zlib fuel zb).2.haveMore →
        (gotDeflateRead zlib fuel zb).2.left rank < zb.left rank)
      ∧ (gotDeflateRead zlib fuel zb).2.bufsize = zb.bufsize := by
  obtain ⟨hne, hlower, hsame⟩ :=
    @deflateLoop_ends _ zlib rank { zb with outbuf := [] } fuel h hsize hfuel
  rw [gotDeflateRead]
  dsimp only
  split
  · next e he =>
    exact ⟨fun hf => hne (he.trans (congrArg Except.error (Option.some.inj hf))),
      fun hnone => (by cases hnone), hsame⟩
  · next hok => exact ⟨fun hf => (by cases hf), fun _ _ => hlower hok, hsame⟩
  · exact ⟨fun hf => (by cases hf), fun _ hmore => absurd hmore Bool.false_ne_true, hsame⟩
  · exact ⟨fun hf => (by cases hf), fun hnone => (by cases hnone), hsame⟩

/-- Writing does not run out of fuel, and leaves the compressor alone. -/
theorem ToFile.write_ends (capacity : ℕ) (st : ToFile ζ) :
    (st.write capacity).1 ≠ some .fuel ∧ (st.write capacity).2.zb = st.zb := by
  unfold ToFile.write
  split
  · exact ⟨fun hf => (by cases hf), rfl⟩
  · split <;> exact ⟨fun hf => (by cases hf), rfl⟩

/-- **The outer loop ends.** -/
theorem toFileLoop_ends (h : zlib.Ends rank) {capacity n : ℕ} {st : ToFile ζ}
    (hsize : 0 < st.zb.bufsize) (hfuel : st.zb.left rank < fuel) (hn : st.zb.left rank < n) :
    (toFileLoop zlib capacity fuel n st).1 ≠ some .fuel := by
  induction n generalizing st with
  | zero => exact absurd hn (Nat.not_lt_zero _)
  | succ n ih =>
    obtain ⟨hne, hlower, hsame⟩ := @gotDeflateRead_ends _ zlib rank st.zb fuel h hsize hfuel
    obtain ⟨hne', hzb⟩ := ToFile.write_ends capacity
      { st with zb := (gotDeflateRead zlib fuel st.zb).2 }
    rw [toFileLoop]
    dsimp only
    split
    · next e he => exact fun hf => hne (he.trans hf)
    next hok =>
    split
    · next e he => exact fun hf => hne' (he.trans hf)
    split
    · next hmore =>
      rw [hzb] at hmore
      have hlt := hlower hok hmore
      refine ih ?_ ?_ ?_ <;> rw [hzb]
      · exact hsame ▸ hsize
      · exact Nat.lt_trans hlt hfuel
      · exact Nat.lt_of_lt_of_le hlt (Nat.le_of_lt_succ hn)
    · exact fun hf => by cases hf

end Ends

/-! ## That it succeeds -/

/-- **zlib works as documented**, where `writing` are the states of a stream that still takes
input, and `finishing` those of one that was told to finish and has output left.

With input and space for output, a call always gets something done, so it returns `Z_OK`. Told to
finish, it returns `Z_OK` while the space runs out, and `Z_STREAM_END` once it is done. Nothing is
asked of a call with input after it was told to finish: that is an error to zlib, and
`got_deflate_to_file` never makes one. -/
structure Deflater.Works (zlib : Deflater ζ) (writing finishing : ζ → Prop) : Prop where
  init : writing zlib.init
  write : ∀ z input availOut, writing z → input ≠ [] → 0 < availOut →
    (zlib.step z .noFlush input availOut).ret = .ok
      ∧ writing (zlib.step z .noFlush input availOut).z
  finish : ∀ z availOut, writing z ∨ finishing z → 0 < availOut →
    (zlib.step z .finish [] availOut).ret = .streamEnd
      ∨ (zlib.step z .finish [] availOut).ret = .ok
        ∧ finishing (zlib.step z .finish [] availOut).z

section Works

variable {zlib : Deflater ζ} {writing finishing : ζ → Prop} {content : Bytes}
  {zb zb' : DeflateBuf ζ} {fuel capacity : ℕ}

/-- **All is well between two calls**: the file can be read, and `deflate` was only told to finish
if there is nothing more to come. -/
structure DeflateBuf.Ready (writing finishing : ζ → Prop) (zb : DeflateBuf ζ) : Prop where
  state : writing zb.z ∨ finishing zb.z ∧ zb.nextIn ++ zb.infile.content = []
  readable : zb.infile.fails = false
  sized : 0 < zb.bufsize

/-- If a read gets something, `deflate` was not told to finish before. -/
theorem DeflateBuf.Ready.fill (h : zb.Ready writing finishing) (hfill : zb.fill = some zb')
    (hnext : zb'.nextIn ≠ []) : writing zb'.z ∧ zb'.infile.fails = false := by
  unfold DeflateBuf.fill at hfill
  split at hfill
  · obtain ⟨r, hr, rfl⟩ := Option.map_eq_some_iff.mp hfill
    refine ⟨h.state.resolve_right fun hfinish => hnext ?_,
      (Source.fails_of_read hr).trans h.readable⟩
    have hcontent := (List.append_eq_nil_iff.mp hfinish.2).2
    rw [Source.content_of_read hr] at hcontent
    exact (List.append_eq_nil_iff.mp hcontent).1
  · cases hfill
    exact ⟨h.state.resolve_right fun hfinish => hnext (List.append_eq_nil_iff.mp hfinish.2).1,
      h.readable⟩

/-- **The inner loop** returns no error but for want of fuel. -/
theorem deflateLoop_works (h : zlib.Works writing finishing) (hready : zb.Ready writing finishing)
    (hroom : zb.outbuf.length < zb.bufsize) :
    (deflateLoop zlib fuel zb).1 = .error .fuel
      ∨ (deflateLoop zlib fuel zb).1 = .ok .streamEnd
      ∨ (deflateLoop zlib fuel zb).1 = .ok .ok
        ∧ (deflateLoop zlib fuel zb).2.Ready writing finishing := by
  induction fuel generalizing zb with
  | zero => exact Or.inl rfl
  | succ fuel ih =>
    rw [deflateLoop]
    split
    · next hfill =>
      obtain ⟨hnext, hcontent⟩ := List.append_eq_nil_iff.mp (fill_eq_none hfill)
      rw [if_neg (by rw [hready.readable]; exact Bool.false_ne_true)]
      have hfinish := h.finish zb.z (zb.bufsize - zb.outbuf.length)
        (hready.state.imp_right And.left) (Nat.sub_pos_of_lt hroom)
      rw [← hnext] at hfinish
      refine Or.inr (hfinish.imp (congrArg _) fun ⟨hret, hstate⟩ => ⟨congrArg _ hret, ?_,
        hready.readable, hready.sized⟩)
      refine Or.inr ⟨hstate, ?_⟩
      show zb.nextIn.drop _ ++ zb.infile.content = []
      rw [hnext, hcontent, List.drop_nil, List.append_nil]
    next zb' hfill =>
    obtain ⟨-, hnext, hbuf, hsame⟩ := @left_fill _ (fun _ _ => 0) _ _ hready.sized hfill
    obtain ⟨hwriting, hreadable⟩ := hready.fill hfill hnext
    have hroom' : zb'.outbuf.length < zb'.bufsize := by rw [hbuf, hsame]; exact hroom
    obtain ⟨hret, hstate⟩ := h.write zb'.z zb'.nextIn (zb'.bufsize - zb'.outbuf.length) hwriting
      hnext (Nat.sub_pos_of_lt hroom')
    have hready' : (zb'.deflate zlib .noFlush).2.Ready writing finishing :=
      ⟨Or.inl hstate, hreadable, Nat.zero_lt_of_lt hroom'⟩
    dsimp only
    split
    · next hmore => exact ih hready' hmore.2
    · exact Or.inr (Or.inr ⟨congrArg _ hret, hready'⟩)

/-- With a zlib that works as documented, a read succeeds or runs out of fuel, and leaves the stream
ready for the next read. -/
theorem gotDeflateRead_works (h : zlib.Works writing finishing)
    (hready : zb.Ready writing finishing) :
    (gotDeflateRead zlib fuel zb).1 = some .fuel
      ∨ (gotDeflateRead zlib fuel zb).1 = none ∧ ((gotDeflateRead zlib fuel zb).2.haveMore →
        (gotDeflateRead zlib fuel zb).2.Ready writing finishing) := by
  have hloop := @deflateLoop_works _ zlib _ _ { zb with outbuf := [] } fuel h
    ⟨hready.state, hready.readable, hready.sized⟩ hready.sized
  rw [gotDeflateRead]
  dsimp only
  obtain hret | hret | ⟨hret, hready'⟩ := hloop
  · rw [hret]
    exact Or.inl rfl
  · rw [hret]
    exact Or.inr ⟨rfl, fun hmore => absurd hmore Bool.false_ne_true⟩
  · rw [hret]
    exact Or.inr ⟨rfl, fun _ => ⟨hready'.state, hready'.readable, hready'.sized⟩⟩

/-- Writing only fails if more was produced than the file takes. -/
theorem ToFile.write_works {st : ToFile ζ} (h : Holds st.outfile st.zb) :
    (st.write capacity).1 = none
      ∨ (st.write capacity).1 = some .io ∧ capacity < (producedBy st.zb.calls).length := by
  unfold ToFile.write
  split
  · exact Or.inl rfl
  · split
    · next hfull =>
      rw [h, List.length_append]
      exact Or.inr ⟨rfl, hfull⟩
    · exact Or.inl rfl

/-- **The outer loop** only fails where the output file has no room, or for want of fuel. -/
theorem toFileLoop_works (h : zlib.Works writing finishing) {n : ℕ} {st : ToFile ζ}
    (hready : st.zb.Ready writing finishing) (hfed : Fed content st.zb)
    (hwritten : producedBy st.zb.calls = st.outfile) (hlen : st.outlen = st.outfile.length) :
    (toFileLoop zlib capacity fuel n st).1 = none
      ∨ (toFileLoop zlib capacity fuel n st).1 = some .fuel
      ∨ capacity < (producedBy (toFileLoop zlib capacity fuel n st).2.zb.calls).length := by
  induction n generalizing st with
  | zero => exact Or.inr (Or.inl rfl)
  | succ n ih =>
    obtain ⟨hfed', hout, -⟩ := @Fed.gotDeflateRead _ zlib _ _ _ fuel hfed hwritten
    rw [toFileLoop]
    dsimp only
    obtain hfuel | ⟨hok, hmore⟩ := @gotDeflateRead_works _ zlib _ _ _ fuel h hready
    · rw [hfuel]
      exact Or.inr (Or.inl rfl)
    rw [hok]
    dsimp only
    have hout : Holds { st with zb := (gotDeflateRead zlib fuel st.zb).2 }.outfile
      { st with zb := (gotDeflateRead zlib fuel st.zb).2 }.zb := hout
    obtain ⟨hzb, -, hsync⟩ := @Holds.write _ capacity _ hout hlen
    obtain hwrite | ⟨hwrite, hfull⟩ := @ToFile.write_works _ capacity _ hout
    · rw [hwrite]
      dsimp only
      obtain ⟨hsame, hlen'⟩ := hsync hwrite
      split
      · next hagain =>
        rw [hzb] at hagain
        exact ih (hzb ▸ hmore hagain) (hzb ▸ hfed') (hzb ▸ hsame) hlen'
      · exact Or.inl rfl
    · rw [hwrite]
      dsimp only
      rw [hzb]
      exact Or.inr (Or.inr hfull)

end Works

/-- **`got_deflate_to_file`**: however the reads, the calls and the writes go, every byte
of the file that was consumed was consumed once and in order, `deflate` was told to finish
only when all of them were, and the bytes in the output file are those that were produced,
once and in order. If there is no error, all of the file was consumed, all that was
produced is in the output file, its length is reported, and the last call has returned
`Z_STREAM_END`.

The loops end if zlib does. And if zlib works as documented, the file can be read to its end and
the output file has room for what is produced, then there is no error: an output buffer that is
full, in the middle of the input or while finishing, is no reason to fail. -/
theorem gotDeflateToFile_spec (zlib : Deflater ζ) (capacity fuel : ℕ) (infile : Source UInt8) :
    let r := gotDeflateToFile zlib capacity fuel infile
    consumedBy r.2.zb.calls <+: infile.content
      ∧ (∀ pre c post, r.2.zb.calls = pre ++ c :: post → c.flush = .finish →
        consumedBy pre = infile.content)
      ∧ r.2.outfile <+: producedBy r.2.zb.calls
      ∧ (r.1 = none → consumedBy r.2.zb.calls = infile.content
        ∧ r.2.outfile = producedBy r.2.zb.calls ∧ r.2.outlen = r.2.outfile.length
        ∧ ∃ pre c, r.2.zb.calls = pre ++ [c] ∧ c.ret = .streamEnd)
      ∧ ∀ rank, zlib.Ends rank → rank zlib.init infile.content.length < fuel →
        r.1 ≠ some .fuel
          ∧ ∀ writing finishing, zlib.Works writing finishing → infile.fails = false →
            (producedBy r.2.zb.calls).length ≤ capacity → r.1 = none := by
  intro r
  obtain ⟨hfed, hwritten, hsuccess⟩ : Ended infile.content r.1 r.2 :=
    toFileLoop_ended ⟨rfl, fun pre c post hnil => by simp at hnil⟩ rfl rfl
  refine ⟨⟨_, hfed.split⟩, hfed.finish, hwritten, fun hnone => ?_, fun rank h hfuel => ?_⟩
  · obtain ⟨hsame, hlen, pre, c, hcalls, hret, hflush⟩ := hsuccess hnone
    refine ⟨?_, hsame.symm, hlen, pre, c, hcalls, hret⟩
    -- what was consumed before the last call is all there was
    have hpre := hfed.finish pre c [] hcalls hflush
    have hsplit := hfed.split
    rw [hcalls, consumedBy_concat, hpre, List.append_assoc] at hsplit
    rw [hcalls, consumedBy_concat, hpre,
      (List.append_eq_nil_iff.mp (List.append_right_eq_self.mp hsplit)).1, List.append_nil]
  · have hleft : rank zlib.init (0 + infile.content.length) < fuel := by
      rw [Nat.zero_add]
      exact hfuel
    have hends : r.1 ≠ some .fuel := toFileLoop_ends h (Nat.succ_pos _) hleft hleft
    refine ⟨hends, fun writing finishing hworks hreadable hroom => ?_⟩
    have hready : DeflateBuf.Ready writing finishing
        ⟨zlib.init, [], [], GOT_DEFLATE_BUFSIZE, false, infile, []⟩ :=
      ⟨Or.inl hworks.init, hreadable, Nat.succ_pos _⟩
    obtain hnone | hfuel | hfull : r.1 = none ∨ r.1 = some .fuel
        ∨ capacity < (producedBy r.2.zb.calls).length :=
      toFileLoop_works hworks hready ⟨rfl, fun pre c post hnil => by simp at hnil⟩ rfl rfl
    · exact hnone
    · exact absurd hfuel hends
    · exact absurd hroom (Nat.not_le.mpr hfull)

/-! ## A file of two bytes -/

theorem ok_of_noFlush (input : Bytes) (availOut : ℕ) :
    (if Flush.noFlush = .finish ∧ input.length ≤ availOut then Ret.streamEnd else .ok)
      ≠ .streamEnd := by
  rw [if_neg fun h => (by cases h.1)]
  exact fun h => by cases h

/-- A stand-in for `deflate`, which copies. -/
def copying : Deflater Unit where
  step _ flush input availOut :=
    { z := ()
      ret := if flush = .finish ∧ input.length ≤ availOut then .streamEnd else .ok
      consumed := min availOut input.length
      produced := input.take availOut }
  consumed_le _ _ _ _ := Nat.min_le_right _ _
  produced_le _ _ input availOut := List.length_take_le availOut input
  init := ()
  not_streamEnd _ input availOut := ok_of_noFlush input availOut

/-- Copying comes to an end, since every call consumes something. -/
theorem copying_ends : copying.Ends fun _ left => left := by
  intro z flush input availOut rest hroom hinput hret
  have hne : input ≠ [] := by
    rintro rfl
    obtain hinput | rfl := hinput
    · exact hinput rfl
    · have hend : (if Flush.finish = .finish ∧ ([] : Bytes).length ≤ availOut then Ret.streamEnd
          else .ok) = .ok := hret
      rw [if_pos ⟨rfl, Nat.zero_le _⟩] at hend
      cases hend
  have hlen := List.length_pos_iff.mpr hne
  show input.length - min availOut input.length + rest < input.length + rest
  omega

/-- It works as documented, and never has anything left when it is told to finish. -/
theorem copying_works : copying.Works (fun _ => True) fun _ => False where
  init := trivial
  write _ input availOut _ _ _ := by
    refine ⟨?_, trivial⟩
    show (if Flush.noFlush = .finish ∧ input.length ≤ availOut then Ret.streamEnd else .ok) = .ok
    exact if_neg fun h => by cases h.1
  finish _ availOut _ _ := by
    show (if Flush.finish = .finish ∧ ([] : Bytes).length ≤ availOut then Ret.streamEnd
      else .ok) = .streamEnd ∨ _
    exact Or.inl (if_pos ⟨rfl, Nat.zero_le _⟩)

/-- A file that is read byte by byte. -/
def twoReads : Source UInt8 where
  chunks := [⟨[0x61], List.cons_ne_nil _ _⟩, ⟨[0x62], List.cons_ne_nil _ _⟩]
  fails := false

theorem gotDeflateToFile_twoReads :
    (gotDeflateToFile copying 2 3 twoReads).1 = none
      ∧ (gotDeflateToFile copying 2 3 twoReads).2.outfile = [0x61, 0x62] :=
  ⟨((gotDeflateToFile_spec copying 2 3 twoReads).2.2.2.2 _ copying_ends
    (by show 2 < 3; decide)).2 _ _ copying_works rfl le_rfl, rfl⟩

end Deflate

end Got

import Got.Inflate.Read

/-!
# Inflating into a file

`got_inflate_to_fd`, `got_inflate_to_file`, `got_inflate_to_file_fd` and
`got_inflate_to_file_mmap` are one loop, which fills the output buffer and writes it out
until the end of the stream. The last two report how many bytes of the input they have
consumed, and the one on a file descriptor only counts a call that has given some output.

If the output fills the buffer exactly before the stream has ended, which has a checksum
behind its data, then the last call gives no output. So what is reported is right of
every decompressor and every way to read the input only if the length of the data is no
multiple of that of the buffer; and the mapping must not be so long that the stream does
not fit into the part of it that `avail_in` can count (`reports_iff`).
-/

namespace Got

open ZStream

namespace Inflate

variable {ζ σ : Type}

/-- **The state of these functions**, with the file that is written. -/
structure ToFile (ζ σ : Type) where
  zb : InflateBuf ζ σ
  outfile : Bytes
  outlen : ℕ
  /-- For those who ask for it. -/
  consumedTotal : ℕ

/-- How these functions differ: in how they read, in what happens to the input between
calls, in whether a call without output counts as well, and in what is reported if
the output file cannot be written. -/
structure Reader (ζ σ : Type) where
  read : InflateBuf ζ σ → Option GotErr × InflateBuf ζ σ
  skip : ℕ → σ → σ
  countsAll : Bool
  writeError : GotErr

/-- After a call. -/
def ToFile.received (rd : Reader ζ σ) (st : ToFile ζ σ) (zb : InflateBuf ζ σ) : ToFile ζ σ :=
  { st with
    zb := { zb with input := rd.skip zb.consumed zb.input }
    consumedTotal := st.consumedTotal + if rd.countsAll then zb.consumed else 0 }

/-- The output buffer is written out, if there is something in it. The file takes
`capacity` bytes. -/
def ToFile.write (rd : Reader ζ σ) (capacity : ℕ) (st : ToFile ζ σ) :
    Option GotErr × ToFile ζ σ :=
  if st.zb.outbuf = [] then (none, st)
  else if capacity < st.outfile.length + st.zb.outbuf.length then
    (some rd.writeError, { st with outfile := (st.outfile ++ st.zb.outbuf).take capacity })
  else
    (none, { st with
      outfile := st.outfile ++ st.zb.outbuf
      outlen := st.outlen + st.zb.outbuf.length
      consumedTotal := st.consumedTotal + if rd.countsAll then 0 else st.zb.consumed })

/-- The loop. -/
def toFileLoop (rd : Reader ζ σ) (capacity : ℕ) : ℕ → ToFile ζ σ → Option GotErr × ToFile ζ σ
  | 0, st => (some .fuel, st)
  | n + 1, st =>
    let r := rd.read st.zb
    match r.1 with
    | some e => (some e, { st with zb := r.2 })
    | none =>
      let w := (st.received rd r.2).write rd capacity
      match w.1 with
      | some e => (some e, w.2)
      | none => if w.2.zb.haveMore then toFileLoop rd capacity n w.2 else (none, w.2)

/-- The state at the beginning. -/
def toFileStart (zlib : Inflater ζ) (csum : Option Bytes) (input : σ) : ToFile ζ σ where
  zb := gotInflateInit zlib GOT_INFLATE_BUFSIZE csum input
  outfile := []
  outlen := 0
  consumedTotal := 0

variable (zlib : Inflater ζ) (capacity fuel : ℕ)

/-- `got_inflate_to_fd` -/
def gotInflateToFd (f : Source UInt8) : Option GotErr × ToFile ζ (Source UInt8) :=
  toFileLoop ⟨gotInflateRead zlib fuel, fun _ f => f, false, .errno .io⟩ capacity fuel
    (toFileStart zlib none f)

/-- `got_inflate_to_file` -/
def gotInflateToFile (f : Source UInt8) : Option GotErr × ToFile ζ (Source UInt8) :=
  toFileLoop ⟨gotInflateRead zlib fuel, fun _ f => f, false, .io⟩ capacity fuel
    (toFileStart zlib none f)

/-- `got_inflate_to_file_fd` -/
def gotInflateToFileFd (csum : Option Bytes) (f : Source UInt8) :
    Option GotErr × ToFile ζ (Source UInt8) :=
  toFileLoop ⟨gotInflateReadFd zlib fuel, fun _ f => f, false, .io⟩ capacity fuel
    (toFileStart zlib csum f)

/-- `got_inflate_to_file_mmap` -/
def gotInflateToFileMmap (csum : Option Bytes) (m : Mapping) :
    Option GotErr × ToFile ζ Mapping :=
  toFileLoop ⟨gotInflateReadMmap zlib fuel, Mapping.skip, true, .io⟩ capacity fuel
    (toFileStart zlib csum m)

/-! ## What is reported of a stream -/

/-- **What is to be reported** of a stream and its data, and what is to be mixed into
checksums. -/
structure Reports (csum : Option Bytes) (stream data : Bytes)
    (r : Option GotErr × ToFile ζ σ) : Prop where
  success : r.1 = none
  outfile : r.2.outfile = data
  outlen : r.2.outlen = data.length
  consumedTotal : r.2.consumedTotal = stream.length
  csum : r.2.zb.csum = csum.map (· ++ stream)

section Stream

variable {zlib : Inflater ζ} {refill : Refill σ} {skip : ℕ → σ → σ} {capacity fuel n : ℕ}
  {countsAll : Bool} {e : GotErr} {holds : Bytes → σ → ℕ → Bytes → Prop}
  {left : ζ → Bytes → Bytes → Prop} {stream data : Bytes} {st : ToFile ζ σ}

/-- What is written is counted, and so is what was consumed for it. -/
theorem write_received {rd : Reader ζ σ} {zb : InflateBuf ζ σ} (hout : zb.outbuf ≠ [])
    (hcapacity : st.outfile.length + zb.outbuf.length ≤ capacity) :
    (st.received rd zb).write rd capacity
      = (none,
          { zb := { zb with input := rd.skip zb.consumed zb.input }
            outfile := st.outfile ++ zb.outbuf
            outlen := st.outlen + zb.outbuf.length
            consumedTotal := st.consumedTotal + zb.consumed }) := by
  unfold ToFile.write ToFile.received
  rw [if_neg hout, if_neg (Nat.not_lt.mpr hcapacity)]
  cases hcounts : rd.countsAll with
  | false => rfl
  | true => simp only [if_true, Nat.add_zero]

/-- **The loop on a stream**: the data is written, and both lengths are reported. A call
without output has to be counted, or must not occur. -/
theorem toFileLoop_stream (hfeed : Feeds refill skip holds) (hdec : zlib.Decodes left)
    (hleft : left st.zb.z stream data) (hstream : stream ≠ [])
    (hholds : holds st.zb.nextIn st.zb.input 0 stream) (hinlen : 0 < st.zb.inlen)
    (hroom : 0 < toUInt st.zb.outlen)
    (hcounts : countsAll ∨ ¬toUInt st.zb.outlen ∣ data.length)
    (hcapacity : st.outfile.length + data.length ≤ capacity)
    (hfuel : stream.length + data.length < fuel) (hn : stream.length + data.length < n) :
    ∃ st', toFileLoop ⟨inflateRead zlib refill fuel, skip, countsAll, e⟩ capacity n st = (none, st')
      ∧ st'.outfile = st.outfile ++ data ∧ st'.outlen = st.outlen + data.length
      ∧ st'.consumedTotal = st.consumedTotal + stream.length
      ∧ st'.zb.csum = st.zb.csum.map (· ++ stream) := by
  induction n generalizing st stream data with
  | zero => exact absurd hn (Nat.not_lt_zero _)
  | succ n ih =>
    obtain ⟨zb', eaten, stream', data', hread, hsplit, hdata, hconsumed, hcsum, hinlen', houtlen',
      hleft', hholds', hless, hmore⟩ :=
      hfeed.inflateRead hdec hleft hstream hholds hinlen hroom hfuel
    have hlen : data.length = zb'.outbuf.length + data'.length := by
      rw [hdata, List.length_append]
    rw [toFileLoop]
    dsimp only
    rw [hread]
    dsimp only
    by_cases hout : zb'.outbuf = []
    · -- only the last call gives no output, and then there is no data at all
      obtain ⟨hlast, rfl⟩ := hmore.resolve_right fun h => by
        rw [hout, List.length_nil] at h
        exact Nat.ne_of_gt hroom h.2.2.symm
      obtain rfl := hdec.checksum hleft'
      rw [hout, List.append_nil] at hdata
      rw [List.append_nil] at hsplit
      have hall : countsAll = true := hcounts.resolve_right fun h => h (by
        rw [hdata]
        exact Nat.dvd_zero _)
      have hwrite : (st.received ⟨inflateRead zlib refill fuel, skip, countsAll, e⟩ zb').write
          ⟨inflateRead zlib refill fuel, skip, countsAll, e⟩ capacity
          = (none, st.received ⟨inflateRead zlib refill fuel, skip, countsAll, e⟩ zb') :=
        if_pos hout
      rw [hwrite]
      dsimp only
      rw [show (st.received ⟨inflateRead zlib refill fuel, skip, countsAll, e⟩ zb').zb.haveMore
        = false from hlast, if_neg Bool.false_ne_true]
      refine ⟨_, rfl, ?_, ?_, ?_, ?_⟩
      · rw [hdata, List.append_nil]
        rfl
      · rw [hdata]
        rfl
      · show st.consumedTotal + (if countsAll then zb'.consumed else 0) = _
        rw [if_pos hall, hconsumed, hsplit]
      · show zb'.csum = _
        rw [hcsum, hsplit]
    rw [write_received hout (by omega)]
    dsimp only
    obtain ⟨hlast, rfl⟩ | ⟨hmore, hnil, hfull⟩ := hmore
    · obtain rfl := hdec.checksum hleft'
      rw [List.append_nil] at hdata hsplit
      rw [hlast, if_neg Bool.false_ne_true]
      refine ⟨_, rfl, by rw [hdata], by rw [hdata], ?_, ?_⟩
      · rw [hconsumed, hsplit]
      · rw [hcsum, hsplit]
    · rw [if_pos hmore]
      obtain ⟨st', hloop, hfile, hlen', hcons, hcs⟩ := @ih stream' data'
        { zb := { zb' with input := skip zb'.consumed zb'.input }
          outfile := st.outfile ++ zb'.outbuf
          outlen := st.outlen + zb'.outbuf.length
          consumedTotal := st.consumedTotal + zb'.consumed }
        hleft' hnil (hfeed.next hholds') (hinlen' ▸ hinlen) (houtlen' ▸ hroom)
        (hcounts.imp_right fun h hdvd => h (by
          rw [hlen, hfull]
          exact Nat.dvd_add (Nat.dvd_refl _) (houtlen' ▸ hdvd)))
        (by rw [List.length_append]; omega) (by omega) (by omega)
      refine ⟨st', hloop, ?_, ?_, ?_, ?_⟩
      · rw [hfile, List.append_assoc, ← hdata]
      · rw [hlen', hlen, Nat.add_assoc]
      · rw [hcons, hconsumed, hsplit, List.length_append, Nat.add_assoc]
      · rw [hcs, hcsum, Option.map_map, hsplit]
        exact congrArg (Option.map · _) (funext fun b => List.append_assoc b eaten stream')

end Stream

section Reports

variable {zlib : Inflater ζ} {capacity fuel : ℕ} {csum : Option Bytes}
  {stream data behind : Bytes}

/-- **`got_inflate_to_file_fd`** reports a stream in a file, however it is read, if its
data does not fill the output buffer a whole number of times. -/
theorem gotInflateToFileFd_reports (hdec : zlib.Decompresses stream data) (hstream : stream ≠ [])
    (hdvd : ¬GOT_INFLATE_BUFSIZE ∣ data.length) (hcapacity : data.length ≤ capacity)
    {f : Source UInt8} (hf : f.content = stream ++ behind)
    (hfuel : stream.length + data.length < fuel) :
    Reports csum stream data (gotInflateToFileFd zlib capacity fuel csum f) := by
  obtain ⟨left, hdec, hinit⟩ := hdec
  obtain ⟨st', hloop, hfile, hlen, hconsumed, hcsum⟩ :=
    @toFileLoop_stream _ _ zlib _ _ capacity fuel fuel false .io _ left stream data
      (toFileStart zlib csum f) (feeds_file (.errno .io) behind) hdec hinit hstream hf
      (Nat.succ_pos _) (Nat.succ_pos _) (Or.inr hdvd)
      (by show 0 + _ ≤ _; omega) hfuel hfuel
  have hrun : gotInflateToFileFd zlib capacity fuel csum f = (none, st') := hloop
  rw [hrun]
  exact ⟨rfl, hfile, hlen.trans (Nat.zero_add _), hconsumed.trans (Nat.zero_add _), hcsum⟩

/-- What is mapped. -/
def Mapping.content (m : Mapping) : Bytes := (m.map.drop m.offset).take m.len

theorem toUInt_le (n : ℕ) : toUInt n ≤ n := Nat.mod_le _ _

/-- **`got_inflate_to_file_mmap`** reports a stream in a mapping, if it is in the part of
the mapping that `avail_in` can count. -/
theorem gotInflateToFileMmap_reports (hdec : zlib.Decompresses stream data)
    (hstream : stream ≠ []) (hcapacity : data.length ≤ capacity) {m : Mapping}
    (hm : m.content = stream ++ behind) (hlen : stream.length ≤ toUInt m.len)
    (hfuel : stream.length + data.length < fuel) :
    Reports csum stream data (gotInflateToFileMmap zlib capacity fuel csum m) := by
  obtain ⟨left, hdec, hinit⟩ := hdec
  have hne : m.len ≠ 0 := fun h0 => by
    rw [h0] at hlen
    exact hstream (List.eq_nil_of_length_eq_zero (Nat.le_zero.mp hlen))
  have hahead : stream <+: (m.map.drop m.offset).take (toUInt m.len) := by
    have htake : (m.map.drop m.offset).take (toUInt m.len) = m.content.take (toUInt m.len) := by
      unfold Mapping.content
      rw [List.take_take, Nat.min_eq_left (toUInt_le _)]
    rw [htake, hm, List.take_append, List.take_of_length_le hlen]
    exact List.prefix_append _ _
  obtain ⟨st', hloop, hfile, hlen', hconsumed, hcsum⟩ :=
    @toFileLoop_stream _ _ zlib _ _ capacity fuel fuel true .io _ left stream data
      (toFileStart zlib csum m) feeds_mmap hdec hinit hstream (Or.inr ⟨rfl, rfl, hne, hahead⟩)
      (Nat.succ_pos _) (Nat.succ_pos _) (Or.inl rfl)
      (by show 0 + _ ≤ _; omega) hfuel hfuel
  have hrun : gotInflateToFileMmap zlib capacity fuel csum m = (none, st') := hloop
  rw [hrun]
  exact ⟨rfl, hfile, hlen'.trans (Nat.zero_add _), hconsumed.trans (Nat.zero_add _), hcsum⟩

end Reports

/-! ## What is not reported -/

section Mmap

variable {zlib : Inflater ζ} {capacity fuel n total : ℕ} {st : ToFile ζ Mapping}

/-- **No more is consumed of a mapping** than `avail_in` could count of it at the
beginning, when there were `total` bytes. -/
def WithinUInt (total base : ℕ) (zb : InflateBuf ζ Mapping) : Prop :=
  zb.input.len = total - base ∧ base + (zb.consumed + zb.nextIn.length) ≤ toUInt total

/-- Inflating consumes no more of the mapping than could be counted. -/
theorem WithinUInt.inflate {base : ℕ} {zb : InflateBuf ζ Mapping} (h : WithinUInt total base zb) :
    WithinUInt total base (zb.inflate zlib).2 := by
  refine ⟨h.1, ?_⟩
  have hle := zlib.consumed_le zb.z .syncFlush zb.nextIn zb.availOut
  show base + (zb.consumed + _ + (zb.nextIn.drop _).length) ≤ _
  rw [List.length_drop, Nat.add_assoc, Nat.add_sub_cancel' hle]
  exact h.2

/-- Refilling keeps what was taken below the limit of `unsigned int`. -/
theorem WithinUInt.fill {base : ℕ} {zb zb' : InflateBuf ζ Mapping}
    (h : WithinUInt total base zb) (hfill : zb.fill refillMmap = .ok (some zb')) :
    WithinUInt total base zb' := by
  obtain ⟨hlen, hle⟩ := h
  unfold InflateBuf.fill refillMmap at hfill
  split at hfill
  · next hnext =>
    rw [hnext, List.length_nil, Nat.add_zero] at hle
    split at hfill
    · cases hfill
    · cases hfill
    next data input hrefill =>
    split at hrefill
    · cases hrefill
    cases hrefill
    cases hfill
    refine ⟨hlen, ?_⟩
    have hdata := List.length_take_le (toUInt (zb.input.len - zb.consumed))
      (zb.input.map.drop (zb.input.offset + zb.consumed))
    show base + (zb.consumed + (List.take _ _).length) ≤ _
    rw [hlen] at hdata
    rw [hlen]
    unfold toUInt at hdata hle ⊢
    omega
  · cases hfill
    exact ⟨hlen, hle⟩

/-- Reading consumes no more of the mapping than could be counted. -/
theorem inflateRead_withinUInt {base : ℕ} {zb : InflateBuf ζ Mapping}
    (h : WithinUInt total base zb.start) :
    WithinUInt total base (gotInflateReadMmap zlib fuel zb).2 := by
  have hloop : WithinUInt total base (inflateLoop zlib refillMmap fuel zb.start).2 :=
    inflateLoop_invariant (fun _ => WithinUInt.inflate) (fun _ _ => WithinUInt.fill) h
  unfold gotInflateReadMmap inflateRead
  dsimp only
  split <;> exact hloop

/-- Writing out changes neither the buffers nor what is counted, if all calls count. -/
theorem write_countsAll {σ : Type} {rd : Reader ζ σ} (hrd : rd.countsAll = true)
    (st : ToFile ζ σ) : (st.write rd capacity).2.zb = st.zb
      ∧ (st.write rd capacity).2.consumedTotal = st.consumedTotal := by
  unfold ToFile.write
  rw [hrd]
  split
  · exact ⟨rfl, rfl⟩
  · split <;> exact ⟨rfl, rfl⟩

/-- The loop never takes more than an `unsigned int` of the map, however long the map is. -/
theorem toFileLoop_withinUInt {e : GotErr} (hlen : st.zb.input.len = total - st.consumedTotal)
    (hle : st.consumedTotal + st.zb.nextIn.length ≤ toUInt total) :
    (toFileLoop ⟨gotInflateReadMmap zlib fuel, Mapping.skip, true, e⟩ capacity n st).2.consumedTotal
      ≤ toUInt total := by
  induction n generalizing st with
  | zero => exact Nat.le_trans (Nat.le_add_right _ _) hle
  | succ n ih =>
    obtain ⟨hlen', hle'⟩ : WithinUInt total st.consumedTotal
      (gotInflateReadMmap zlib fuel st.zb).2 :=
      inflateRead_withinUInt ⟨hlen, by
        show st.consumedTotal + (0 + st.zb.nextIn.length) ≤ _
        rw [Nat.zero_add]
        exact hle⟩
    obtain ⟨hzb, hsame⟩ := @write_countsAll _ capacity _
      ⟨gotInflateReadMmap zlib fuel, Mapping.skip, true, e⟩ rfl
      (st.received ⟨gotInflateReadMmap zlib fuel, Mapping.skip, true, e⟩
        (gotInflateReadMmap zlib fuel st.zb).2)
    have hcount : (st.received ⟨gotInflateReadMmap zlib fuel, Mapping.skip, true, e⟩
        (gotInflateReadMmap zlib fuel st.zb).2).consumedTotal
        = st.consumedTotal + (gotInflateReadMmap zlib fuel st.zb).2.consumed := rfl
    rw [toFileLoop]
    dsimp only
    split
    · exact Nat.le_trans (Nat.le_add_right _ _) hle
    split
    · rw [hsame, hcount]
      omega
    split
    · refine ih ?_ ?_
      · rw [hzb, hsame, hcount]
        show _ - _ = _
        rw [hlen', Nat.sub_sub]
      · rw [hzb, hsame, hcount, Nat.add_assoc]
        exact hle'
    · rw [hsame, hcount]
      omega

/-- **`got_inflate_to_file_mmap` does not report more** than what `avail_in` can count. -/
theorem gotInflateToFileMmap_consumedTotal_le (csum : Option Bytes) (m : Mapping) :
    (gotInflateToFileMmap zlib capacity fuel csum m).2.consumedTotal ≤ toUInt m.len :=
  toFileLoop_withinUInt rfl (Nat.zero_le _)

end Mmap

/-! ### Data before the rest of the stream -/

/-- A call of a decompressor that gives all data before it consumes anything. -/
def lazyStep (z : Bytes × Bytes) (input : Bytes) (availOut : ℕ) : Step (Bytes × Bytes) UInt8 :=
  if z.2 = [] then
    { z := (z.1.drop (min input.length z.1.length), [])
      ret := if z.1.length ≤ input.length then .streamEnd
        else if input = [] then .bufError else .ok
      consumed := min input.length z.1.length
      produced := [] }
  else
    { z := (z.1, z.2.drop availOut)
      ret := if availOut = 0 then .bufError else .ok
      consumed := 0
      produced := z.2.take availOut }

/-- No more is consumed than there is. -/
theorem lazyStep_consumed_le (z : Bytes × Bytes) (input : Bytes) (availOut : ℕ) :
    (lazyStep z input availOut).consumed ≤ input.length := by
  unfold lazyStep
  split
  · exact Nat.min_le_left _ _
  · exact Nat.zero_le _

/-- No more is produced than there is room for. -/
theorem lazyStep_produced_le (z : Bytes × Bytes) (input : Bytes) (availOut : ℕ) :
    (lazyStep z input availOut).produced.length ≤ availOut := by
  unfold lazyStep
  split
  · exact Nat.zero_le _
  · exact List.length_take_le _ _

/-- **A decompressor for one stream**, which gives all data before it consumes
anything. -/
def lazily (stream data : Bytes) : Inflater (Bytes × Bytes) where
  step z _ input availOut := lazyStep z input availOut
  consumed_le z _ input availOut := lazyStep_consumed_le z input availOut
  produced_le z _ input availOut := lazyStep_produced_le z input availOut
  init := (stream, data)

/-- The lazy decompressor gives out its data for its stream, as a decompressor has to. -/
theorem lazily_decompresses {stream data : Bytes} (hstream : stream ≠ []) :
    (lazily stream data).Decompresses stream data := by
  refine ⟨fun z s d => z = (s, d) ∧ (s = [] → d = []), ⟨fun h => h.2 rfl, ?_⟩, rfl,
    fun h => absurd h hstream⟩
  rintro z s d ⟨rfl, -⟩ hs input behind hahead availOut
  show ∃ s' d', s = input.take (lazyStep (s, d) input availOut).consumed ++ s'
    ∧ d = (lazyStep (s, d) input availOut).produced ++ d'
    ∧ ((lazyStep (s, d) input availOut).z = (s', d') ∧ (s' = [] → d' = []))
    ∧ (s' = [] → (lazyStep (s, d) input availOut).ret = .streamEnd)
    ∧ (s' ≠ [] → ((lazyStep (s, d) input availOut).ret = .ok
        ∧ s'.length + d'.length < s.length + d.length)
      ∨ ((lazyStep (s, d) input availOut).ret = .bufError ∧ s' = s ∧ d' = d
        ∧ (input = [] ∨ availOut = 0)))
  unfold lazyStep
  dsimp only
  by_cases hd : d = []
  · subst hd
    rw [if_pos rfl]
    dsimp only
    have htake : s.take (min input.length s.length)
        = input.take (min input.length s.length) := by
      obtain ⟨rest, hrest⟩ := hahead
      have hlonger : (s ++ behind).take (min input.length s.length)
          = s.take (min input.length s.length) :=
        List.take_append_of_le_length (Nat.min_le_right _ _)
      rw [← hlonger, ← hrest, List.take_append_of_le_length (Nat.min_le_left _ _)]
    refine ⟨s.drop (min input.length s.length), [], ?_, rfl, ⟨rfl, fun _ => rfl⟩, fun h => ?_,
      fun h => ?_⟩
    · rw [← htake, List.take_append_drop]
    · rw [List.drop_eq_nil_iff] at h
      exact if_pos (Nat.le_trans h (Nat.min_le_left _ _))
    · have hlong : ¬s.length ≤ input.length := fun hle =>
        h (List.drop_eq_nil_iff.mpr (Nat.le_min.mpr ⟨hle, Nat.le_refl _⟩))
      rw [if_neg hlong]
      by_cases hinput : input = []
      · rw [if_pos hinput, hinput]
        exact Or.inr ⟨rfl, by rw [List.length_nil, Nat.zero_min]; rfl, rfl, Or.inl rfl⟩
      · rw [if_neg hinput]
        refine Or.inl ⟨rfl, ?_⟩
        have hpos := List.length_pos_iff.mpr hinput
        rw [List.length_drop]
        omega
  · rw [if_neg hd]
    refine ⟨s, d.drop availOut, rfl, (List.take_append_drop _ _).symm, ⟨rfl, fun h => absurd h hs⟩,
      fun h => absurd h hs, fun _ => ?_⟩
    dsimp only
    by_cases hroom : availOut = 0
    · exact Or.inr ⟨if_pos hroom, rfl, by rw [hroom]; rfl, Or.inr hroom⟩
    · refine Or.inl ⟨if_neg hroom, ?_⟩
      have hpos := List.length_pos_iff.mpr hd
      rw [List.length_drop]
      omega

section Lazily

variable {stream data : Bytes} {refill : Refill σ} {fuel : ℕ}

/-- Where there is no data left, there is no output. -/
theorem lazily_noData {zb : InflateBuf (Bytes × Bytes) σ} (hz : zb.z.2 = [])
    (hout : zb.outbuf = []) :
    (inflateLoop (lazily stream data) refill fuel zb).2.z.2 = []
      ∧ (inflateLoop (lazily stream data) refill fuel zb).2.outbuf = [] := by
  refine @inflateLoop_invariant _ _ (lazily stream data) refill zb fuel
    (fun zb => zb.z.2 = [] ∧ zb.outbuf = []) (fun zb h => ?_) (fun zb zb' h hfill => ?_) ⟨hz, hout⟩
  · show (lazyStep zb.z zb.nextIn zb.availOut).z.2 = []
      ∧ zb.outbuf ++ (lazyStep zb.z zb.nextIn zb.availOut).produced = []
    unfold lazyStep
    rw [if_pos h.1, h.2]
    exact ⟨rfl, rfl⟩
  · rw [fill_eq_some hfill]
    exact h

/-- Where there is enough data left, the first call fills the buffer. -/
theorem lazily_fills {zb : InflateBuf (Bytes × Bytes) σ}
    (hsize : zb.outlen = GOT_INFLATE_BUFSIZE) (hdvd : GOT_INFLATE_BUFSIZE ∣ zb.z.2.length)
    (hz : zb.z.2 ≠ []) :
    (inflateLoop (lazily stream data) refill fuel zb.start).2.consumed = 0
      ∧ GOT_INFLATE_BUFSIZE
        ∣ (inflateLoop (lazily stream data) refill fuel zb.start).2.z.2.length := by
  cases fuel with
  | zero => exact ⟨rfl, hdvd⟩
  | succ fuel =>
    rw [inflateLoop]
    split
    · exact ⟨rfl, hdvd⟩
    · exact ⟨rfl, hdvd⟩
    next zb1 hfill =>
    have hzb1 := fill_eq_some hfill
    have hroom : zb1.availOut = GOT_INFLATE_BUFSIZE := by
      rw [hzb1]
      show toUInt zb.outlen - 0 = _
      rw [hsize]
      rfl
    have hz1 : zb1.z = zb.z := by rw [hzb1]; rfl
    have hstep : lazyStep zb1.z zb1.nextIn zb1.availOut
        = { z := (zb.z.1, zb.z.2.drop GOT_INFLATE_BUFSIZE)
            ret := .ok
            consumed := 0
            produced := zb.z.2.take GOT_INFLATE_BUFSIZE } := by
      unfold lazyStep
      rw [hz1, hroom, if_neg hz]
      rfl
    have hlen : GOT_INFLATE_BUFSIZE ≤ zb.z.2.length :=
      Nat.le_of_dvd (List.length_pos_iff.mpr hz) hdvd
    have hcall : (zb1.inflate (lazily stream data)).2.consumed = 0
        ∧ (zb1.inflate (lazily stream data)).2.z.2 = zb.z.2.drop GOT_INFLATE_BUFSIZE
        ∧ (zb1.inflate (lazily stream data)).2.availOut = 0 := by
      refine ⟨?_, ?_, ?_⟩
      · show zb1.consumed + (lazyStep zb1.z zb1.nextIn zb1.availOut).consumed = 0
        rw [hstep, hzb1]
        rfl
      · show (lazyStep zb1.z zb1.nextIn zb1.availOut).z.2 = _
        rw [hstep]
      · show toUInt zb1.outlen
          - (zb1.outbuf ++ (lazyStep zb1.z zb1.nextIn zb1.availOut).produced).length = 0
        rw [hstep, hzb1]
        show toUInt zb.outlen - ([] ++ zb.z.2.take GOT_INFLATE_BUFSIZE).length = 0
        rw [hsize, List.nil_append, List.length_take, Nat.min_eq_left hlen]
        rfl
    dsimp only
    rw [if_neg (by rw [hcall.2.2]; exact fun h => absurd h.2 (Nat.lt_irrefl 0))]
    refine ⟨hcall.1, ?_⟩
    rw [hcall.2.1, List.length_drop]
    exact Nat.dvd_sub hdvd (Nat.dvd_refl _)

theorem outlen_inflateLoop {ζ : Type} {zlib : Inflater ζ} {zb : InflateBuf ζ σ} :
    (inflateLoop zlib refill fuel zb).2.outlen = zb.outlen :=
  @inflateLoop_invariant _ _ zlib refill zb fuel (fun zb' => zb'.outlen = zb.outlen)
    (fun _ h => h) (fun _ _ h hfill => by rw [fill_eq_some hfill]; exact h) rfl

/-- **A call either gives no output or consumes nothing**, if the data left fills the
buffer a whole number of times. -/
theorem lazily_inflateRead {zb : InflateBuf (Bytes × Bytes) σ}
    (hsize : zb.outlen = GOT_INFLATE_BUFSIZE) (hdvd : GOT_INFLATE_BUFSIZE ∣ zb.z.2.length) :
    ((inflateRead (lazily stream data) refill fuel zb).2.outbuf = []
        ∨ (inflateRead (lazily stream data) refill fuel zb).2.consumed = 0)
      ∧ GOT_INFLATE_BUFSIZE ∣ (inflateRead (lazily stream data) refill fuel zb).2.z.2.length
      ∧ (inflateRead (lazily stream data) refill fuel zb).2.outlen = GOT_INFLATE_BUFSIZE := by
  have hloop : ((inflateLoop (lazily stream data) refill fuel zb.start).2.outbuf = []
        ∨ (inflateLoop (lazily stream data) refill fuel zb.start).2.consumed = 0)
      ∧ GOT_INFLATE_BUFSIZE ∣ (inflateLoop (lazily stream data) refill fuel zb.start).2.z.2.length
      ∧ (inflateLoop (lazily stream data) refill fuel zb.start).2.outlen
        = GOT_INFLATE_BUFSIZE := by
    refine ⟨?_, ?_, outlen_inflateLoop.trans hsize⟩
    · by_cases hz : zb.z.2 = []
      · exact Or.inl (@lazily_noData _ stream data refill fuel zb.start hz rfl).2
      · exact Or.inr (lazily_fills hsize hdvd hz).1
    · by_cases hz : zb.z.2 = []
      · rw [(@lazily_noData _ stream data refill fuel zb.start hz rfl).1]
        exact Nat.dvd_zero _
      · exact (lazily_fills hsize hdvd hz).2
  unfold inflateRead
  dsimp only
  split <;> exact hloop

/-- A call without output is not counted. -/
theorem write_idle {rd : Reader ζ σ} {capacity : ℕ} {st : ToFile ζ σ}
    (h : st.zb.outbuf = [] ∨ st.zb.consumed = 0) :
    (st.write rd capacity).2.zb = st.zb
      ∧ (st.write rd capacity).2.consumedTotal = st.consumedTotal := by
  unfold ToFile.write
  split
  · exact ⟨rfl, rfl⟩
  · next hout =>
    split
    · exact ⟨rfl, rfl⟩
    · refine ⟨rfl, ?_⟩
      show st.consumedTotal + (if rd.countsAll then 0 else st.zb.consumed) = _
      rw [h.resolve_left hout, ite_self, Nat.add_zero]

/-- **Then nothing is reported as consumed**, however the file is read. -/
theorem lazily_consumedTotal {e : GotErr} {capacity n : ℕ}
    {st : ToFile (Bytes × Bytes) (Source UInt8)} (hsize : st.zb.outlen = GOT_INFLATE_BUFSIZE)
    (hdvd : GOT_INFLATE_BUFSIZE ∣ st.zb.z.2.length) :
    (toFileLoop ⟨gotInflateReadFd (lazily stream data) fuel, fun _ f => f, false, e⟩ capacity n
      st).2.consumedTotal = st.consumedTotal := by
  induction n generalizing st with
  | zero => rfl
  | succ n ih =>
    obtain ⟨hidle, hdvd', hsize'⟩ :=
      @lazily_inflateRead _ stream data (refillFile (.errno .io)) fuel st.zb hsize hdvd
    obtain ⟨hzb, hsame⟩ := @write_idle _ _
      ⟨gotInflateReadFd (lazily stream data) fuel, fun _ f => f, false, e⟩ capacity
      (st.received ⟨gotInflateReadFd (lazily stream data) fuel, fun _ f => f, false, e⟩
        (gotInflateReadFd (lazily stream data) fuel st.zb).2) hidle
    rw [toFileLoop]
    dsimp only
    split
    · rfl
    split
    · exact hsame
    split
    · rw [ih (by rw [hzb]; exact hsize') (by rw [hzb]; exact hdvd'), hsame]
      rfl
    · exact hsame

end Lazily

/-- **When the right lengths are reported**, of a stream `stream` for `data`, with
`behind` behind it. Whatever the decompressor does and however the file is read, both
functions report the length of the data and that of the stream, exactly if the data does
not fill the output buffer a whole number of times, and the stream is in the part of the
mapping that `avail_in` can count. -/
theorem reports_iff (stream data behind : Bytes) (hstream : stream ≠ []) :
    (∀ (ζ : Type) (zlib : Inflater ζ), zlib.Decompresses stream data →
      ∀ (csum : Option Bytes) (capacity : ℕ), data.length ≤ capacity →
        (∀ f : Source UInt8, f.content = stream ++ behind → ∃ fuel₀, ∀ fuel, fuel₀ ≤ fuel →
          Reports csum stream data (gotInflateToFileFd zlib capacity fuel csum f))
        ∧ ∀ m : Mapping, m.content = stream ++ behind → m.len = (stream ++ behind).length →
          ∃ fuel₀, ∀ fuel, fuel₀ ≤ fuel →
            Reports csum stream data (gotInflateToFileMmap zlib capacity fuel csum m))
      ↔ ¬GOT_INFLATE_BUFSIZE ∣ data.length
        ∧ stream.length ≤ toUInt (stream.length + behind.length) := by
  constructor
  · intro h
    have hlazy := h _ _ (@lazily_decompresses stream data hstream) none data.length
      (Nat.le_refl _)
    have hpos := List.length_pos_iff.mpr hstream
    refine ⟨fun hdvd => ?_, ?_⟩
    · obtain ⟨fuel₀, hrep⟩ := hlazy.1 ⟨[⟨stream ++ behind,
        List.append_ne_nil_of_left_ne_nil hstream behind⟩], false⟩ (List.append_nil _)
      have hnone : ∀ f, (gotInflateToFileFd (lazily stream data) data.length fuel₀ none
          f).2.consumedTotal = 0 := fun f =>
        @lazily_consumedTotal stream data fuel₀ .io data.length fuel₀
          (toFileStart (lazily stream data) none f) rfl hdvd
      rw [← (hrep fuel₀ (Nat.le_refl _)).consumedTotal, hnone] at hpos
      exact absurd hpos (Nat.lt_irrefl 0)
    · obtain ⟨fuel₀, hrep⟩ := hlazy.2 ⟨stream ++ behind, 0, (stream ++ behind).length⟩
        List.take_length rfl
      have hle := @gotInflateToFileMmap_consumedTotal_le _ (lazily stream data) data.length fuel₀
        none ⟨stream ++ behind, 0, (stream ++ behind).length⟩
      rw [(hrep fuel₀ (Nat.le_refl _)).consumedTotal, List.length_append] at hle
      exact hle
  · rintro ⟨hdvd, hfits⟩ ζ zlib hdec csum capacity hcapacity
    refine ⟨fun f hf => ⟨_, fun fuel hfuel =>
      gotInflateToFileFd_reports hdec hstream hdvd hcapacity hf (Nat.lt_of_succ_le hfuel)⟩,
      fun m hm hlen => ⟨_, fun fuel hfuel =>
        gotInflateToFileMmap_reports hdec hstream hcapacity hm ?_ (Nat.lt_of_succ_le hfuel)⟩⟩
    rw [hlen, List.length_append]
    exact hfits

/-- What zlib makes of no data at all. -/
def emptyStream : Bytes := [0x78, 0x9c, 0x03, 0, 0, 0, 0, 0x01]

theorem emptyStream_ne_nil : emptyStream ≠ [] := List.cons_ne_nil _ _

/-- The theorem at work on the stream of no data at all. -/
theorem reports_iff_emptyStream :
    emptyStream ≠ [] ∧
      ((∀ (ζ : Type) (zlib : Inflater ζ), zlib.Decompresses emptyStream [] →
        ∀ (csum : Option Bytes) (capacity : ℕ), ([] : Bytes).length ≤ capacity →
          (∀ f : Source UInt8, f.content = emptyStream ++ [] → ∃ fuel₀, ∀ fuel, fuel₀ ≤ fuel →
            Reports csum emptyStream [] (gotInflateToFileFd zlib capacity fuel csum f))
          ∧ ∀ m : Mapping, m.content = emptyStream ++ [] →
            m.len = (emptyStream ++ []).length → ∃ fuel₀, ∀ fuel, fuel₀ ≤ fuel →
              Reports csum emptyStream [] (gotInflateToFileMmap zlib capacity fuel csum m))
        ↔ ¬GOT_INFLATE_BUFSIZE ∣ ([] : Bytes).length
          ∧ emptyStream.length ≤ toUInt (emptyStream.length + ([] : Bytes).length)) :=
  ⟨emptyStream_ne_nil, reports_iff emptyStream [] [] emptyStream_ne_nil⟩

/-- **Of no data, nothing is reported as consumed** from a file, but all of the stream from
a mapping. -/
theorem not_reports_emptyStream :
    (lazily emptyStream []).Decompresses emptyStream []
      ∧ (gotInflateToFileFd (lazily emptyStream []) 0 2 none
          ⟨[⟨emptyStream, emptyStream_ne_nil⟩], false⟩).1 = none
      ∧ (gotInflateToFileFd (lazily emptyStream []) 0 2 none
          ⟨[⟨emptyStream, emptyStream_ne_nil⟩], false⟩).2.consumedTotal = 0
      ∧ (gotInflateToFileMmap (lazily emptyStream []) 0 2 none
          ⟨emptyStream, 0, emptyStream.length⟩).2.consumedTotal = emptyStream.length :=
  ⟨lazily_decompresses emptyStream_ne_nil, rfl, rfl, rfl⟩

end Inflate

end Got

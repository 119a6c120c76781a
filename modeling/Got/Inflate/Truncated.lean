import Got.Inflate.ToMem

/-!
# Where the input ends

The functions that inflate take the end of their input for the end of the stream, and
none of them finds a stream too short. They fail if `inflate` does: the loops come to an
end with what `inflate` has given out until then, and this is the `Outcome` of all of
them, whether the stream was at its end or not.

That the loops come to an end needs zlib to do so (`Inflater.Ends`), and an input which
keeps what it promises (`Supplies`). A call which gets nowhere, for want of input or
of space, is made again only when there is more of it.
-/

namespace Got

open ZStream

namespace Inflate

variable {ζ σ : Type}

/-- **zlib comes to an end.** `rank` is a bound for how many more calls can succeed, in a
state and with some bytes of input still to come. A call that can get nowhere has a
reason, and changes nothing. -/
structure Inflater.Ends (zlib : Inflater ζ) (rank : ζ → ℕ → ℕ) : Prop where
  ok : ∀ {z input availOut} rest, (zlib.step z .syncFlush input availOut).ret = .ok →
    rank (zlib.step z .syncFlush input availOut).z
        (input.length - (zlib.step z .syncFlush input availOut).consumed + rest)
      < rank z (input.length + rest)
  bufError : ∀ {z input availOut} rest,
    (zlib.step z .syncFlush input availOut).ret = .bufError →
    (input = [] ∨ availOut = 0) ∧ (zlib.step z .syncFlush input availOut).consumed = 0
      ∧ rank (zlib.step z .syncFlush input availOut).z (input.length + rest)
        ≤ rank z (input.length + rest)

/-- **An input that can be read to its end.** There are `later` bytes to be read, other
than those in the input buffer. Where nothing was read, the next call finds the end. -/
structure Supplies (refill : Refill σ) (skip : ℕ → σ → σ) (sound : Bytes → σ → ℕ → Prop)
    (later : Bytes → σ → ℕ → ℕ) : Prop where
  refill_ok : ∀ {input consumed inlen}, sound [] input consumed →
    ∃ r, refill consumed inlen input = .ok r
  refill : ∀ {input consumed inlen data input'}, sound [] input consumed → 0 < inlen →
    refill consumed inlen input = .ok (some (data, input')) →
    sound data input' consumed
      ∧ data.length + later data input' consumed = later [] input consumed
      ∧ (data = [] → ∀ inlen, refill 0 inlen (skip consumed input') = .ok none)
  eat : ∀ {nextIn input consumed} k, sound nextIn input consumed → k ≤ nextIn.length →
    sound (nextIn.drop k) input (consumed + k)
      ∧ later (nextIn.drop k) input (consumed + k) = later nextIn input consumed
  next : ∀ {nextIn input consumed}, sound nextIn input consumed →
    sound nextIn (skip consumed input) 0
      ∧ later nextIn (skip consumed input) 0 = later nextIn input consumed

/-- **A file**, of which no read fails. -/
theorem supplies_file (e : GotErr) :
    Supplies (refillFile e) (fun _ f => f) (fun _ f _ => f.fails = false)
      fun _ f _ => f.content.length where
  refill_ok := by
    intro f consumed inlen hf
    unfold refillFile
    split
    · exact ⟨_, rfl⟩
    · rw [hf]
      exact ⟨_, rfl⟩
  refill := by
    intro f consumed inlen data f' hf hinlen h
    unfold refillFile at h
    split at h
    · next hr =>
      cases h
      refine ⟨(Source.fails_of_read hr).trans hf, ?_,
        fun hnil => absurd hnil (Source.ne_nil_of_read hinlen hr)⟩
      rw [Source.content_of_read hr, List.length_append]
    · split at h <;> cases h
  eat := fun _ h _ => ⟨h, rfl⟩
  next := fun h => ⟨h, rfl⟩

/-- **A mapping** of less than 4 GiB. Once it was read, all of it is in the input
buffer. -/
theorem supplies_mmap :
    Supplies refillMmap Mapping.skip
      (fun nextIn m consumed => m.len < 2 ^ 32 ∧ m.offset + m.len ≤ m.map.length
        ∧ consumed + nextIn.length ≤ m.len
        ∧ (nextIn = [] ∨ consumed + nextIn.length = m.len))
      fun nextIn m consumed => m.len - consumed - nextIn.length where
  refill_ok := by
    intro m consumed inlen _
    unfold refillMmap
    split <;> exact ⟨_, rfl⟩
  refill := by
    intro m consumed inlen data m' h hinlen hr
    obtain ⟨hlen, hmap, hle, -⟩ := h
    unfold refillMmap at hr
    split at hr
    · cases hr
    cases hr
    rw [List.length_nil, Nat.add_zero] at hle
    have hdata : ((m.map.drop (m.offset + consumed)).take (toUInt (m.len - consumed))).length
        = m.len - consumed := by
      rw [List.length_take, List.length_drop]
      unfold toUInt
      omega
    refine ⟨⟨hlen, hmap, by rw [hdata]; omega, Or.inr (by rw [hdata]; omega)⟩, ?_,
      fun hnil inlen => ?_⟩
    · rw [hdata, List.length_nil]
      omega
    · rw [hnil, List.length_nil] at hdata
      exact if_pos hdata.symm
  eat := by
    intro nextIn m consumed k h hk
    obtain ⟨hlen, hmap, hle, hall⟩ := h
    rw [List.length_drop]
    refine ⟨⟨hlen, hmap, by omega, hall.elim (fun hnil => ?_) fun hall => Or.inr (by omega)⟩,
      by omega⟩
    exact Or.inl (by rw [hnil, List.drop_nil])
  next := by
    intro nextIn m consumed h
    obtain ⟨hlen, hmap, hle, hall⟩ := h
    unfold Mapping.skip
    dsimp only
    exact ⟨⟨by omega, by omega, by omega, hall.imp_right fun hall => by omega⟩, by omega⟩

/-! ## One call -/

section Call

variable {zlib : Inflater ζ} {refill : Refill σ} {skip : ℕ → σ → σ}
  {sound : Bytes → σ → ℕ → Prop} {later : Bytes → σ → ℕ → ℕ} {rank : ζ → ℕ → ℕ}
  {zb zb' : InflateBuf ζ σ} {fuel : ℕ} {written : Bytes}

/-- The rank of the state that a call is in. -/
def InflateBuf.left (rank : ζ → ℕ → ℕ) (later : Bytes → σ → ℕ → ℕ) (zb : InflateBuf ζ σ) : ℕ :=
  rank zb.z (zb.nextIn.length + later zb.nextIn zb.input zb.consumed)

/-- **The input is used up**: after this call nothing will be read. -/
def InflateBuf.Dry (refill : Refill σ) (skip : ℕ → σ → σ) (zb : InflateBuf ζ σ) : Prop :=
  zb.nextIn = [] ∧ ∀ inlen, refill 0 inlen (skip zb.consumed zb.input) = .ok none

/-- A refill keeps what is left, and where it brings nothing there is nothing more to come. -/
theorem Supplies.fill (hsup : Supplies refill skip sound later)
    (hsound : sound zb.nextIn zb.input zb.consumed) (hinlen : 0 < zb.inlen)
    (hfill : zb.fill refill = .ok (some zb')) :
    sound zb'.nextIn zb'.input zb'.consumed ∧ zb'.left rank later = zb.left rank later
      ∧ (zb'.nextIn = [] → zb'.Dry refill skip) := by
  unfold InflateBuf.fill at hfill
  split at hfill
  · next hnext =>
    rw [hnext] at hsound
    split at hfill
    · cases hfill
    · cases hfill
    next data input hr =>
    cases hfill
    obtain ⟨hs, hlater, hdry⟩ := hsup.refill hsound hinlen hr
    refine ⟨hs, ?_, fun hnil => ⟨hnil, hdry hnil⟩⟩
    unfold InflateBuf.left
    dsimp only
    rw [hnext, hlater, List.length_nil, Nat.zero_add]
  · next hnext =>
    cases hfill
    exact ⟨hsound, rfl, fun hnil => absurd hnil hnext⟩

/-- A refill that supplies what is left does not fail. -/
theorem Supplies.fill_ok (hsup : Supplies refill skip sound later)
    (hsound : sound zb.nextIn zb.input zb.consumed) : ∃ r, zb.fill refill = .ok r := by
  unfold InflateBuf.fill
  split
  · next hnext =>
    rw [hnext] at hsound
    obtain ⟨r, hr⟩ := @Supplies.refill_ok _ _ _ _ _ hsup _ _ zb.inlen hsound
    rw [hr]
    cases r <;> exact ⟨_, rfl⟩
  · exact ⟨_, rfl⟩

theorem Supplies.inflate (hsup : Supplies refill skip sound later)
    (hsound : sound zb.nextIn zb.input zb.consumed) :
    sound (zb.inflate zlib).2.nextIn (zb.inflate zlib).2.input (zb.inflate zlib).2.consumed :=
  (hsup.eat _ hsound (zlib.consumed_le _ _ _ _)).1

/-- A call of `inflate` that goes on leaves less to do. -/
theorem Supplies.left_ok (hsup : Supplies refill skip sound later) (hends : zlib.Ends rank)
    (hsound : sound zb.nextIn zb.input zb.consumed) (hret : (zb.inflate zlib).1 = .ok) :
    (zb.inflate zlib).2.left rank later < zb.left rank later := by
  have hlt := hends.ok (later zb.nextIn zb.input zb.consumed) hret
  unfold InflateBuf.left InflateBuf.inflate
  dsimp only
  rw [(hsup.eat _ hsound (zlib.consumed_le _ _ _ _)).2, List.length_drop]
  exact hlt

/-- A call that cannot get anywhere has no space, or the input is used up. -/
theorem Supplies.left_bufError (hsup : Supplies refill skip sound later) (hends : zlib.Ends rank)
    (hsound : sound zb.nextIn zb.input zb.consumed) (hret : (zb.inflate zlib).1 = .bufError) :
    (zb.inflate zlib).2.left rank later ≤ zb.left rank later
      ∧ (zb.nextIn = [] ∨ zb.availOut = 0)
      ∧ (zb.Dry refill skip → (zb.inflate zlib).2.Dry refill skip) := by
  obtain ⟨hreason, hzero, hle⟩ := hends.bufError (later zb.nextIn zb.input zb.consumed) hret
  refine ⟨?_, hreason, fun hdry => ?_⟩
  · unfold InflateBuf.left InflateBuf.inflate
    dsimp only
    rw [(hsup.eat _ hsound (zlib.consumed_le _ _ _ _)).2, List.length_drop, hzero, Nat.sub_zero]
    exact hle
  · unfold InflateBuf.Dry InflateBuf.inflate
    dsimp only
    rw [hzero, List.drop_zero, Nat.add_zero]
    exact hdry

theorem availOut_inflate_le : (zb.inflate zlib).2.availOut ≤ zb.availOut := by
  unfold InflateBuf.availOut
  show toUInt zb.outlen - (zb.outbuf ++ _).length ≤ _
  rw [List.length_append]
  omega

/-- **The loop comes to an end.** If there is more to do, then the input is used up or
the output buffer is full, and some of the work was done unless it was full before. -/
theorem Supplies.inflateLoop (hsup : Supplies refill skip sound later) (hends : zlib.Ends rank)
    (hsound : sound zb.nextIn zb.input zb.consumed) (hinlen : 0 < zb.inlen)
    (hfuel : zb.left rank later < fuel) :
    ∃ ret zb', inflateLoop zlib refill fuel zb = (.ok ret, zb')
      ∧ sound zb'.nextIn zb'.input zb'.consumed ∧ zb'.inlen = zb.inlen
      ∧ (ret = .ok ∨ ret = .bufError → zb'.left rank later ≤ zb.left rank later
        ∧ (zb'.Dry refill skip ∨ (zb'.availOut = 0
          ∧ (zb'.left rank later < zb.left rank later ∨ zb.availOut = 0)))) := by
  induction fuel generalizing zb with
  | zero => exact absurd hfuel (Nat.not_lt_zero _)
  | succ fuel ih =>
    rw [Inflate.inflateLoop]
    obtain ⟨r, hr⟩ := hsup.fill_ok hsound
    rw [hr]
    cases r with
    | none => exact ⟨_, zb, rfl, hsound, rfl, fun h => by obtain h | h := h <;> cases h⟩
    | some zb1 =>
      obtain ⟨hsound1, hleft1, hdry1⟩ := @Supplies.fill _ _ _ _ _ _ rank _ _ hsup hsound hinlen hr
      have hmove := moved_fill hr
      have hroom : zb1.availOut = zb.availOut := by
        unfold InflateBuf.availOut
        rw [hmove.outlen, hmove.outbuf, List.append_nil]
      have hsound2 := @Supplies.inflate _ _ zlib _ _ _ _ _ hsup hsound1
      have hshrink := @availOut_inflate_le _ _ zlib zb1
      dsimp only
      rw [← hleft1, ← hroom]
      by_cases hok : (zb1.inflate zlib).1 = .ok
      · have hlt := hsup.left_ok hends hsound1 hok
        by_cases hspace : 0 < (zb1.inflate zlib).2.availOut
        · rw [if_pos ⟨hok, hspace⟩]
          obtain ⟨ret, zb', hloop, hs, hin, hmore⟩ :=
            ih hsound2 (hmove.inlen ▸ hinlen) (by omega)
          refine ⟨ret, zb', hloop, hs, hin.trans hmove.inlen, fun h => ?_⟩
          obtain ⟨hle, hreason⟩ := hmore h
          exact ⟨by omega, hreason.imp_right fun hfull => ⟨hfull.1, Or.inl (by omega)⟩⟩
        · rw [if_neg fun h => hspace h.2]
          exact ⟨_, _, rfl, hsound2, hmove.inlen, fun _ => ⟨Nat.le_of_lt hlt,
            Or.inr ⟨Nat.eq_zero_of_not_pos hspace, Or.inl hlt⟩⟩⟩
      · rw [if_neg fun h => hok h.1]
        refine ⟨_, _, rfl, hsound2, hmove.inlen, fun h => ?_⟩
        obtain ⟨hle, hreason, hdry⟩ := hsup.left_bufError hends hsound1 (h.resolve_left hok)
        refine ⟨hle, hreason.imp (fun hnil => hdry (hdry1 hnil)) fun hfull => ?_⟩
        exact ⟨Nat.eq_zero_of_le_zero (hfull ▸ hshrink), Or.inr hfull⟩

end Call

/-! ## Calls of the functions -/

/-- No call has failed. -/
def NoneFailed (calls : List (Call UInt8)) : Prop := ∀ c ∈ calls, c.ret ≠ .failed

section Calls

variable {zlib : Inflater ζ} {refill : Refill σ} {zb zb' : InflateBuf ζ σ} {fuel : ℕ}
  {written : Bytes}

/-- **The loop fails** if one of its calls does. -/
theorem inflateLoop_failed (h : NoneFailed zb.calls) :
    ((inflateLoop zlib refill fuel zb).1 = .ok .failed →
        ∃ c ∈ (inflateLoop zlib refill fuel zb).2.calls, c.ret = .failed)
      ∧ ((inflateLoop zlib refill fuel zb).1 ≠ .ok .failed →
        NoneFailed (inflateLoop zlib refill fuel zb).2.calls) := by
  induction fuel generalizing zb with
  | zero => exact ⟨fun hret => (by cases hret), fun _ => h⟩
  | succ fuel ih =>
    rw [inflateLoop]
    split
    · exact ⟨fun hret => (by cases hret), fun _ => h⟩
    · exact ⟨fun hret => (by cases hret), fun _ => h⟩
    next zb1 hfill =>
    have hcalls : zb1.calls = zb.calls := by rw [fill_eq_some hfill]
    have hmore : (zb1.inflate zlib).1 ≠ .failed → NoneFailed (zb1.inflate zlib).2.calls := by
      intro hret c hc
      obtain hc | hc := List.mem_append.mp hc
      · exact h c (hcalls ▸ hc)
      · rw [List.mem_singleton.mp hc]
        exact hret
    dsimp only
    split
    · next hok => exact ih (hmore (by rw [hok.1]; exact fun hf => by cases hf))
    · refine ⟨fun hret => ?_, fun hret => hmore fun hf => hret (congrArg Except.ok hf)⟩
      exact ⟨_, List.mem_append_right _ (List.mem_singleton_self _), Except.ok.inj hret⟩

/-- **The output buffer holds** what was produced and is not taken out of it. -/
theorem inflateLoop_holds (h : producedBy zb.calls = written ++ zb.outbuf) :
    producedBy (inflateLoop zlib refill fuel zb).2.calls
      = written ++ (inflateLoop zlib refill fuel zb).2.outbuf := by
  refine @inflateLoop_invariant _ _ zlib refill zb fuel
    (fun zb => producedBy zb.calls = written ++ zb.outbuf) (fun zb h => ?_)
    (fun zb zb' h hfill => ?_) h
  · show producedBy (zb.calls ++ [_]) = written ++ (zb.outbuf ++ _)
    rw [producedBy_concat, h, List.append_assoc]
  · rw [fill_eq_some hfill]
    exact h

variable {skip : ℕ → σ → σ} {sound : Bytes → σ → ℕ → Prop} {later : Bytes → σ → ℕ → ℕ}
  {rank : ζ → ℕ → ℕ}

/-- **A call comes to an end**, and has produced what is in the output buffer. If there
is more to do, then the input is used up or the output buffer is full. -/
theorem Supplies.inflateRead (hsup : Supplies refill skip sound later) (hends : zlib.Ends rank)
    (hsound : sound zb.nextIn zb.input 0) (hinlen : 0 < zb.inlen)
    (hfuel : zb.start.left rank later < fuel) (hnone : NoneFailed zb.calls)
    (hwritten : producedBy zb.calls = written) :
    ∃ err zb', inflateRead zlib refill fuel zb = (err, zb')
      ∧ sound zb'.nextIn zb'.input zb'.consumed ∧ zb'.inlen = zb.inlen ∧ zb'.outlen = zb.outlen
      ∧ producedBy zb'.calls = written ++ zb'.outbuf
      ∧ ((err = some .decompression ∧ ¬NoneFailed zb'.calls)
        ∨ (err = none ∧ NoneFailed zb'.calls
          ∧ (zb'.haveMore = true → zb'.left rank later ≤ zb.start.left rank later
            ∧ (zb'.Dry refill skip ∨ (zb'.outbuf.length = toUInt zb.outlen
              ∧ (zb'.left rank later < zb.start.left rank later ∨ toUInt zb.outlen = 0)))))) := by
  obtain ⟨ret, zb', hloop, hs, hin, hmore⟩ :=
    @Supplies.inflateLoop _ _ zlib refill skip sound later rank zb.start fuel hsup hends hsound
      hinlen
      hfuel
  obtain ⟨hfailed, hnot⟩ := @inflateLoop_failed _ _ zlib refill zb.start fuel hnone
  have hholds := @inflateLoop_holds _ _ zlib refill zb.start fuel written (by
    rw [show zb.start.outbuf = [] from rfl, List.append_nil]
    exact hwritten)
  have hlen := @outlen_inflateLoop _ refill fuel _ zlib zb.start
  have hwithin := @outbuf_inflateLoop_le _ _ zlib refill zb.start fuel (Nat.zero_le _)
  rw [hloop] at hfailed hnot hholds hlen hwithin
  have hlen : zb'.outlen = zb.outlen := hlen
  have hwithin : zb'.outbuf.length ≤ toUInt zb'.outlen := hwithin
  have hmore : ret = .ok ∨ ret = .bufError → zb'.left rank later ≤ zb.start.left rank later
      ∧ (zb'.Dry refill skip ∨ (zb'.outbuf.length = toUInt zb.outlen
        ∧ (zb'.left rank later < zb.start.left rank later ∨ toUInt zb.outlen = 0))) := by
    intro h
    obtain ⟨hle, hreason⟩ := hmore h
    refine ⟨hle, hreason.imp_right fun hfull => ⟨?_, hfull.2⟩⟩
    rw [← hlen]
    exact Nat.le_antisymm hwithin (Nat.le_of_sub_eq_zero hfull.1)
  unfold Inflate.inflateRead
  rw [hloop]
  cases ret with
  | ok =>
    exact ⟨none, _, rfl, hs, hin, hlen, hholds, Or.inr ⟨rfl, hnot fun h => (by cases h),
      fun _ => hmore (Or.inl rfl)⟩⟩
  | bufError =>
    exact ⟨none, _, rfl, hs, hin, hlen, hholds, Or.inr ⟨rfl, hnot fun h => (by cases h),
      fun _ => hmore (Or.inr rfl)⟩⟩
  | streamEnd =>
    exact ⟨none, _, rfl, hs, hin, hlen, hholds, Or.inr ⟨rfl, hnot fun h => (by cases h),
      fun h => absurd h Bool.false_ne_true⟩⟩
  | failed =>
    refine ⟨_, _, rfl, hs, hin, hlen, hholds, Or.inl ⟨rfl, fun hnone => ?_⟩⟩
    obtain ⟨c, hc, hret⟩ := hfailed rfl
    exact hnone c hc hret

/-- Where the input is used up, a call finds the end. -/
theorem inflateRead_dry (hnext : zb.nextIn = [])
    (hdry : ∀ inlen, refill 0 inlen zb.input = .ok none)
    (hfuel : 0 < fuel) :
    inflateRead zlib refill fuel zb = (none, { zb.start with haveMore := false }) := by
  obtain ⟨n, rfl⟩ := Nat.exists_eq_succ_of_ne_zero (Nat.ne_of_gt hfuel)
  have hfill : zb.start.fill refill = .ok none := by
    unfold InflateBuf.fill
    rw [if_pos (show zb.start.nextIn = [] from hnext),
      show refill zb.start.consumed zb.start.inlen zb.start.input = .ok none from hdry _]
  unfold inflateRead inflateLoop
  rw [hfill]

end Calls

/-! ## Into a file -/

/-- **The outcome**: success with what the calls have produced, if none of them failed,
and an error otherwise. -/
def Outcome (calls : List (Call UInt8)) (err : Option GotErr) (out : Bytes) (outlen : ℕ) : Prop :=
  (err = none ∧ NoneFailed calls ∧ out = producedBy calls ∧ outlen = out.length)
    ∨ (err = some .decompression ∧ ¬NoneFailed calls)

section ToFile

variable {zlib : Inflater ζ} {refill : Refill σ} {skip : ℕ → σ → σ} {sound : Bytes → σ → ℕ → Prop}
  {later : Bytes → σ → ℕ → ℕ} {rank : ζ → ℕ → ℕ} {fuel n capacity : ℕ} {countsAll : Bool}
  {e : GotErr} {st : ToFile ζ σ}

/-- What is written is what was produced, unless the file takes no more. -/
theorem write_produced {rd : Reader ζ σ} {zb : InflateBuf ζ σ}
    (hlen : st.outlen = st.outfile.length)
    (hproduced : producedBy zb.calls = st.outfile ++ zb.outbuf)
    (hcapacity : (producedBy zb.calls).length ≤ capacity) :
    ∃ st', (st.received rd zb).write rd capacity = (none, st')
      ∧ st'.zb = { zb with input := rd.skip zb.consumed zb.input }
      ∧ st'.outfile = producedBy zb.calls ∧ st'.outlen = st'.outfile.length := by
  rw [hproduced, List.length_append] at hcapacity
  unfold ToFile.write
  by_cases hout : zb.outbuf = []
  · rw [if_pos (show (st.received rd zb).zb.outbuf = [] from hout)]
    refine ⟨_, rfl, rfl, ?_, hlen⟩
    rw [hproduced, hout, List.append_nil]
    rfl
  · rw [if_neg (show ¬(st.received rd zb).zb.outbuf = [] from hout),
      if_neg (show ¬capacity < (st.received rd zb).outfile.length
        + (st.received rd zb).zb.outbuf.length from Nat.not_lt.mpr hcapacity)]
    refine ⟨_, rfl, rfl, hproduced.symm, ?_⟩
    show st.outlen + zb.outbuf.length = (st.outfile ++ zb.outbuf).length
    rw [hlen, List.length_append]

/-- What is not written does not fit. -/
theorem write_error {rd : Reader ζ σ} {zb : InflateBuf ζ σ}
    (hproduced : producedBy zb.calls = st.outfile ++ zb.outbuf)
    (hcapacity : capacity < (producedBy zb.calls).length)
    (hfits : st.outfile.length ≤ capacity) :
    ∃ st', (st.received rd zb).write rd capacity = (some rd.writeError, st')
      ∧ st'.zb.calls = zb.calls := by
  rw [hproduced, List.length_append] at hcapacity
  unfold ToFile.write
  have hout : zb.outbuf ≠ [] := fun hnil => by
    rw [hnil, List.length_nil] at hcapacity
    omega
  rw [if_neg (show ¬(st.received rd zb).zb.outbuf = [] from hout),
    if_pos (show capacity < (st.received rd zb).outfile.length
      + (st.received rd zb).zb.outbuf.length from hcapacity)]
  exact ⟨_, rfl, rfl⟩

/-- **The loop**, in a state where what was produced is in the file. -/
theorem toFileLoop_outcome (hsup : Supplies refill skip sound later) (hends : zlib.Ends rank)
    (hsound : sound st.zb.nextIn st.zb.input 0) (hinlen : 0 < st.zb.inlen)
    (hroom : 0 < toUInt st.zb.outlen) (hnone : NoneFailed st.zb.calls)
    (hout : st.outfile = producedBy st.zb.calls) (hlen : st.outlen = st.outfile.length)
    (hfits : st.outfile.length ≤ capacity)
    (hfuel : st.zb.start.left rank later < fuel)
    (hn : st.zb.start.left rank later + 1 < n
      ∨ (0 < n ∧ st.zb.nextIn = [] ∧ ∀ inlen, refill 0 inlen st.zb.input = .ok none)) :
    ∃ err st', toFileLoop ⟨inflateRead zlib refill fuel, skip, countsAll, e⟩ capacity n st
      = (err, st')
      ∧ ((err = some e ∧ capacity < (producedBy st'.zb.calls).length)
        ∨ Outcome st'.zb.calls err st'.outfile st'.outlen) := by
  induction n generalizing st with
  | zero => exact absurd hn (by omega)
  | succ n ih =>
    rw [toFileLoop]
    dsimp only
    obtain ⟨err, zb', hread, hs, hin, hlen', hproduced, hfailed | ⟨rfl, hnone', hmore⟩⟩ :=
      hsup.inflateRead hends hsound hinlen hfuel hnone hout.symm
    · obtain ⟨rfl, hfailed⟩ := hfailed
      rw [hread]
      exact ⟨_, _, rfl, Or.inr (Or.inr ⟨rfl, hfailed⟩)⟩
    rw [hread]
    dsimp only
    by_cases hcapacity : capacity < (producedBy zb'.calls).length
    · obtain ⟨st', hwrite, hcalls⟩ := @write_error _ _ capacity st
        ⟨inflateRead zlib refill fuel, skip, countsAll, e⟩ zb' hproduced hcapacity hfits
      rw [hwrite]
      exact ⟨_, _, rfl, Or.inl ⟨rfl, hcalls.symm ▸ hcapacity⟩⟩
    obtain ⟨⟨zb'', outfile, outlen, total⟩, hwrite, hzb, hfile, houtlen⟩ :=
      @write_produced _ _ capacity st ⟨inflateRead zlib refill fuel, skip, countsAll, e⟩ zb' hlen
        hproduced (Nat.not_lt.mp hcapacity)
    dsimp only at hzb hfile houtlen
    subst hzb
    rw [hwrite]
    dsimp only
    split
    · next hhave =>
      obtain ⟨hle, hreason⟩ := hmore hhave
      obtain ⟨hs', hlater⟩ := hsup.next hs
      have hleft : (InflateBuf.start { zb' with input := skip zb'.consumed zb'.input }).left rank
        later
          = zb'.left rank later := by
        unfold InflateBuf.left
        dsimp only [InflateBuf.start]
        rw [hlater]
      refine @ih ⟨_, outfile, outlen, total⟩ hs' (hin ▸ hinlen) (hlen' ▸ hroom) hnone' hfile houtlen
        (hfile ▸ Nat.not_lt.mp hcapacity) ?_ ?_
      · rw [hleft]
        omega
      rw [hleft]
      obtain hn | ⟨-, hnext, hdry⟩ := hn
      · refine hreason.symm.imp (fun hfull => ?_) fun hdry => ⟨by omega, hdry⟩
        have := hfull.2.resolve_right (Nat.ne_of_gt hroom)
        omega
      · -- the call before has found the end
        have hend := @inflateRead_dry _ _ zlib refill st.zb fuel hnext hdry (by omega)
        rw [hread] at hend
        cases hend
        cases hhave
    · exact ⟨_, _, rfl, Or.inr (Or.inl ⟨rfl, hnone', hfile, houtlen⟩)⟩

end ToFile

/-! ## Into memory -/

/-- **How the windows of a block follow one another**: how much was used when there are
`nbuf` buffers, and how much can be used behind that. A window may be empty, but not two
of them one after the other. -/
structure Windows (counts : Bool) (used win : ℕ → ℕ) : Prop where
  fill : ∀ nbuf, 0 < nbuf → used nbuf + win nbuf = used (nbuf + 1)
  grow : ∀ nbuf, 0 < nbuf →
    toUInt (restOf (if counts then nbuf + 1 else nbuf) (used (nbuf + 1))) = win (nbuf + 1)
  space : ∀ nbuf, win nbuf = 0 → 0 < win (nbuf + 1)

/-- What is left of a number of buffers, if it is no more than one buffer. -/
theorem toUInt_restOf {nbuf outlen left : ℕ} (h : outlen + left = nbuf * GOT_INFLATE_BUFSIZE)
    (hle : left ≤ GOT_INFLATE_BUFSIZE) : toUInt (restOf nbuf outlen) = left := by
  unfold restOf bufsBytes toUInt
  rw [← Nat.cast_mul, ← h]
  unfold GOT_INFLATE_BUFSIZE at hle
  have hwrap := Int.bmod_add_bdiv' ((outlen + left : ℕ) : ℤ) (2 ^ 32)
  generalize Int.bmod ((outlen + left : ℕ) : ℤ) (2 ^ 32) = product at hwrap ⊢
  omega

/-- **The buffer that was added counts.** Every window is a whole buffer. -/
theorem windows_counts :
    Windows true (fun nbuf => (nbuf - 1) * GOT_INFLATE_BUFSIZE) fun _ => GOT_INFLATE_BUFSIZE where
  fill := by
    intro nbuf hpos
    rw [Nat.add_sub_cancel, ← Nat.succ_mul, Nat.succ_eq_add_one, Nat.sub_add_cancel hpos]
  grow := by
    intro nbuf hpos
    rw [if_pos rfl]
    refine toUInt_restOf ?_ (Nat.le_refl GOT_INFLATE_BUFSIZE)
    rw [Nat.succ_mul, Nat.add_sub_cancel]
  space := fun _ h => absurd h (Nat.succ_ne_zero _)

/-- **It does not count.** The second window is empty, and all others are a whole
buffer. -/
theorem windows_not_counts :
    Windows false (fun nbuf => if nbuf = 1 then 0 else max 1 (nbuf - 2) * GOT_INFLATE_BUFSIZE)
      fun nbuf => if nbuf = 2 then 0 else GOT_INFLATE_BUFSIZE where
  fill := by
    intro nbuf hpos
    unfold GOT_INFLATE_BUFSIZE
    split <;> split <;> split <;> omega
  grow := by
    intro nbuf hpos
    rw [if_neg Bool.false_ne_true]
    refine toUInt_restOf ?_ ?_
    · unfold GOT_INFLATE_BUFSIZE
      split <;> split <;> omega
    · split
      · exact Nat.zero_le _
      · exact Nat.le_refl GOT_INFLATE_BUFSIZE
  space := by
    intro nbuf h
    split at h
    · next htwo =>
      rw [if_neg (by omega)]
      exact Nat.succ_pos _
    · cases h

section ToMem

variable {zlib : Inflater ζ} {refill : Refill σ} {skip : ℕ → σ → σ} {sound : Bytes → σ → ℕ → Prop}
  {later : Bytes → σ → ℕ → ℕ} {rank : ζ → ℕ → ℕ} {fuel n : ℕ} {stops : σ → Bool}
  {counts block : Bool} {used win : ℕ → ℕ} {st : ToMem ζ σ} {zb : InflateBuf ζ σ}

/-- The window is where it should be. Without a block it is always the same. -/
def ToMem.Placed (used win : ℕ → ℕ) (block : Bool) (st : ToMem ζ σ) : Prop :=
  if block then 0 < st.nbuf ∧ st.outlen = used st.nbuf ∧ toUInt st.zb.outlen = win st.nbuf
  else 0 < toUInt st.zb.outlen

/-- What is to be done after a call. -/
def ToMem.next (rd : MemReader ζ σ) (block : Bool) (st : ToMem ζ σ) : ToMem ζ σ :=
  if block then st.grow rd else st

/-- Growing the buffer touches the output length of the state only. -/
theorem next_zb (rd : MemReader ζ σ) (block : Bool) (st : ToMem ζ σ) :
    ∃ outlen, (st.next rd block).zb = { st.zb with outlen := outlen } := by
  unfold ToMem.next ToMem.grow
  cases block with
  | false => exact ⟨st.zb.outlen, rfl⟩
  | true =>
    rw [if_pos rfl]
    dsimp only
    exact ⟨_, rfl⟩

/-- Growing the buffer keeps what was written. -/
theorem next_outbuf (rd : MemReader ζ σ) (block : Bool) (st : ToMem ζ σ) :
    (st.next rd block).outbuf = st.outbuf ∧ (st.next rd block).outlen = st.outlen := by
  unfold ToMem.next ToMem.grow
  cases block with
  | false => exact ⟨rfl, rfl⟩
  | true =>
    rw [if_pos rfl]
    dsimp only
    exact ⟨rfl, rfl⟩

/-- **The next window** is where it should be after a call that has used all of this
one, and it is not empty if this one was. -/
theorem ToMem.Placed.next {rd : MemReader ζ σ} (hwindows : Windows rd.counts used win)
    (h : st.Placed used win block) (hlen : zb.outlen = st.zb.outlen)
    (hfull : zb.outbuf.length = toUInt st.zb.outlen) :
    ((st.received rd zb).next rd block).Placed used win block
      ∧ (toUInt st.zb.outlen = 0 → 0 < toUInt ((st.received rd zb).next rd block).zb.outlen) := by
  unfold ToMem.Placed at h ⊢
  unfold ToMem.next
  cases block with
  | false =>
    have hsame : toUInt (st.received rd zb).zb.outlen = toUInt st.zb.outlen := congrArg toUInt hlen
    rw [if_neg Bool.false_ne_true] at h ⊢
    rw [if_neg Bool.false_ne_true, hsame]
    exact ⟨h, fun hnone => absurd hnone (Nat.ne_of_gt h)⟩
  | true =>
    rw [if_pos rfl] at h ⊢
    rw [if_pos rfl]
    obtain ⟨hpos, hused, hwin⟩ := h
    have hgrown : (st.received rd zb).outlen = used (st.nbuf + 1) := by
      show st.outlen + zb.outbuf.length = _
      rw [hfull, hused, hwin, hwindows.fill _ hpos]
    have hnext : toUInt ((st.received rd zb).grow rd).zb.outlen = win (st.nbuf + 1) := by
      rw [← hwindows.grow _ hpos, ← hgrown]
      unfold ToMem.grow ToMem.received
      dsimp only
    refine ⟨⟨Nat.succ_pos _, hgrown, hnext⟩, fun hnone => ?_⟩
    rw [hnext]
    exact hwindows.space _ (hwin ▸ hnone)

/-- After a call that has succeeded. -/
theorem toMemLoop_succ {rd : MemReader ζ σ} (hread : rd.read st.zb = (none, zb)) :
    toMemLoop rd (fun _ => true) block (n + 1) st
      = if rd.stops (st.received rd zb).zb.input ∨ ¬zb.haveMore then (none, st.received rd zb)
        else toMemLoop rd (fun _ => true) block n ((st.received rd zb).next rd block) := by
  rw [toMemLoop]
  unfold ToMem.next
  dsimp only
  rw [hread]
  dsimp only
  by_cases hstops : rd.stops (st.received rd zb).zb.input = true
  · rw [if_pos hstops, if_pos (Or.inl hstops)]
  rw [if_neg hstops]
  by_cases hhave : zb.haveMore = true
  · rw [if_neg (show ¬¬(st.received rd zb).zb.haveMore = true from not_not_intro hhave),
      if_neg (show ¬(rd.stops (st.received rd zb).zb.input = true ∨ ¬zb.haveMore = true) from
        fun h => h.elim hstops fun h => h hhave)]
    cases block with
    | false => rw [if_pos Bool.false_ne_true, if_neg Bool.false_ne_true]
    | true => rw [if_neg (not_not_intro rfl), if_pos rfl, if_pos rfl]
  · rw [if_pos (show ¬(st.received rd zb).zb.haveMore = true from hhave), if_pos (Or.inr hhave)]

/-- **The loop**, in a state where what was produced was given out. -/
theorem toMemLoop_outcome (hsup : Supplies refill skip sound later) (hends : zlib.Ends rank)
    (hwindows : Windows counts used win)
    (hsound : sound st.zb.nextIn st.zb.input 0) (hinlen : 0 < st.zb.inlen)
    (hnone : NoneFailed st.zb.calls)
    (hout : st.outbuf = producedBy st.zb.calls) (hlen : st.outlen = st.outbuf.length)
    (hfuel : st.zb.start.left rank later < fuel)
    (hn : (st.Placed used win block
        ∧ 2 * st.zb.start.left rank later + (if toUInt st.zb.outlen = 0 then 1 else 0) + 1 < n)
      ∨ (0 < n ∧ st.zb.nextIn = [] ∧ ∀ inlen, refill 0 inlen st.zb.input = .ok none)) :
    ∃ err st', toMemLoop ⟨inflateRead zlib refill fuel, skip, stops, counts⟩
      (fun _ => true) block n st
        = (err, st')
      ∧ Outcome st'.zb.calls err st'.outbuf st'.outlen := by
  induction n generalizing st with
  | zero => exact absurd hn (by omega)
  | succ n ih =>
    obtain ⟨err, zb', hread, hs, hin, hlen', hproduced, hfailed | ⟨rfl, hnone', hmore⟩⟩ :=
      hsup.inflateRead hends hsound hinlen hfuel hnone hout.symm
    · obtain ⟨rfl, hfailed⟩ := hfailed
      rw [toMemLoop]
      dsimp only
      rw [hread]
      exact ⟨_, _, rfl, Or.inr ⟨rfl, hfailed⟩⟩
    have hgiven : st.outbuf ++ zb'.outbuf = producedBy zb'.calls := by rw [hproduced, hout]
    have hcounted : st.outlen + zb'.outbuf.length = (st.outbuf ++ zb'.outbuf).length := by
      rw [hlen, List.length_append]
    rw [toMemLoop_succ hread]
    split
    · exact ⟨_, _, rfl, Or.inl ⟨rfl, hnone', hgiven, hcounted⟩⟩
    next hgoes =>
    have hhave : zb'.haveMore = true := Classical.not_not.mp fun h => hgoes (Or.inr h)
    obtain ⟨hle, hreason⟩ := hmore hhave
    obtain ⟨hs', hlater⟩ := hsup.next hs
    obtain ⟨outlen, hzb⟩ := next_zb ⟨inflateRead zlib refill fuel, skip, stops, counts⟩ block
      (st.received ⟨inflateRead zlib refill fuel, skip, stops, counts⟩ zb')
    obtain ⟨hkeep, hkeeplen⟩ :=
      next_outbuf ⟨inflateRead zlib refill fuel, skip, stops, counts⟩ block
      (st.received ⟨inflateRead zlib refill fuel, skip, stops, counts⟩ zb')
    have hplaced := fun h : st.Placed used win block =>
      @ToMem.Placed.next _ _ block used win st zb'
        ⟨inflateRead zlib refill fuel, skip, stops, counts⟩ hwindows h hlen'
    generalize (st.received ⟨inflateRead zlib refill fuel, skip, stops, counts⟩ zb').next
      ⟨inflateRead zlib refill fuel, skip, stops, counts⟩ block
        = st' at hzb hkeep hkeeplen hplaced ⊢
    have hleft : st'.zb.start.left rank later = zb'.left rank later := by
      rw [hzb]
      unfold InflateBuf.left
      dsimp only [InflateBuf.start]
      show rank zb'.z (zb'.nextIn.length + later zb'.nextIn (skip zb'.consumed zb'.input) 0) = _
      rw [hlater]
    refine @ih st' (by rw [hzb]; exact hs') (by rw [hzb]; exact hin ▸ hinlen)
      (by rw [hzb]; exact hnone') (by rw [hkeep, hzb]; exact hgiven)
      (by rw [hkeep, hkeeplen]; exact hcounted) (by omega) ?_
    rw [hleft]
    obtain ⟨hat, hn⟩ | ⟨-, hnext, hdry⟩ := hn
    · obtain hdry | ⟨hfull, hless⟩ := hreason
      · refine Or.inr ⟨by omega, ?_⟩
        rw [hzb]
        exact hdry
      · obtain ⟨hat', hspace⟩ := hplaced hat hfull
        refine Or.inl ⟨hat', ?_⟩
        obtain hless | hnospace := hless
        · split <;> omega
        · rw [if_pos hnospace] at hn
          rw [if_neg (Nat.ne_of_gt (hspace hnospace))]
          omega
    · -- the call before has found the end
      have hend := @inflateRead_dry _ _ zlib refill st.zb fuel hnext hdry (by omega)
      rw [hread] at hend
      cases hend
      cases hhave

end ToMem

/-! ## All of them -/

/-- The outcome of a function that writes to a file, which takes `capacity` bytes. -/
def ToFileOutcome (capacity : ℕ) (e : GotErr) (r : Option GotErr × ToFile ζ σ) : Prop :=
  (r.1 = some e ∧ capacity < (producedBy r.2.zb.calls).length)
    ∨ Outcome r.2.zb.calls r.1 r.2.outfile r.2.outlen

/-- The outcome of a function that writes to memory. -/
def ToMemOutcome (r : Option GotErr × ToMem ζ σ) : Prop :=
  Outcome r.2.zb.calls r.1 r.2.outbuf r.2.outlen

section Functions

variable {zlib : Inflater ζ} {refill : Refill σ} {skip : ℕ → σ → σ} {sound : Bytes → σ → ℕ → Prop}
  {later : Bytes → σ → ℕ → ℕ} {rank : ζ → ℕ → ℕ} {fuel capacity allocated bufsize : ℕ}
  {countsAll counts block : Bool} {stops : σ → Bool} {e : GotErr} {csum : Option Bytes} {input : σ}
  {used win : ℕ → ℕ}

/-- **Into a file**, from the beginning. -/
theorem toFileStart_outcome (hsup : Supplies refill skip sound later) (hends : zlib.Ends rank)
    (hsound : sound [] input 0) (hfuel : rank zlib.init (later [] input 0) + 1 < fuel) :
    ToFileOutcome capacity e
      (toFileLoop ⟨inflateRead zlib refill fuel, skip, countsAll, e⟩ capacity fuel
        (toFileStart zlib csum input)) := by
  have hleft : (toFileStart zlib csum input).zb.start.left rank later
      = rank zlib.init (later [] input 0) := congrArg (rank zlib.init) (Nat.zero_add _)
  obtain ⟨err, st', hloop, houtcome⟩ :=
    @toFileLoop_outcome _ _ zlib refill skip sound later rank fuel fuel capacity countsAll e
      (toFileStart zlib csum input) hsup hends hsound (Nat.succ_pos _) (Nat.succ_pos _)
      (fun c hc => absurd hc List.not_mem_nil) rfl rfl (Nat.zero_le _) (by omega)
      (Or.inl (by omega))
  rw [hloop]
  exact houtcome

/-- **Into memory**, from the beginning. -/
theorem toMemStart_outcome (hsup : Supplies refill skip sound later) (hends : zlib.Ends rank)
    (hwindows : Windows counts used win) (hused : used 1 = 0) (hwin : win 1 = GOT_INFLATE_BUFSIZE)
    (hpos : 0 < bufsize) (hle : bufsize ≤ GOT_INFLATE_BUFSIZE)
    (hblock : block = true → bufsize = GOT_INFLATE_BUFSIZE)
    (hsound : sound [] input 0) (hfuel : 2 * rank zlib.init (later [] input 0) + 1 < fuel) :
    ToMemOutcome (toMemStart (fun _ => true) allocated (gotInflateInit zlib bufsize csum input)
      (toMemLoop ⟨inflateRead zlib refill fuel, skip, stops, counts⟩
      (fun _ => true) block fuel)) := by
  have hleft : (gotInflateInit zlib bufsize csum input).start.left rank later
      = rank zlib.init (later [] input 0) := congrArg (rank zlib.init) (Nat.zero_add _)
  have hsize : toUInt bufsize = bufsize := by
    unfold toUInt
    unfold GOT_INFLATE_BUFSIZE at hle
    omega
  have hplaced : ToMem.Placed used win block
      ⟨gotInflateInit zlib bufsize csum input, 0, allocated, 1, [], 0, 0, []⟩ := by
    unfold ToMem.Placed
    cases block with
    | false =>
      rw [if_neg Bool.false_ne_true]
      exact Nat.lt_of_lt_of_eq hpos hsize.symm
    | true =>
      rw [if_pos rfl]
      exact ⟨Nat.one_pos, hused.symm, hsize.trans ((hblock rfl).trans hwin.symm)⟩
  have hn : 2 * (gotInflateInit zlib bufsize csum input).start.left rank later
      + (if toUInt bufsize = 0 then 1 else 0) + 1 < fuel := by
    rw [hleft, if_neg (by omega)]
    exact hfuel
  obtain ⟨err, st', hloop, houtcome⟩ :=
    @toMemLoop_outcome _ _ zlib refill skip sound later rank fuel fuel stops counts block used win
      ⟨gotInflateInit zlib bufsize csum input, 0, allocated, 1, [], 0, 0, []⟩ hsup hends hwindows
      hsound hpos (fun c hc => absurd hc List.not_mem_nil) rfl rfl
      (show (gotInflateInit zlib bufsize csum input).start.left rank later < fuel by omega)
      (Or.inl ⟨hplaced, hn⟩)
  unfold toMemStart
  dsimp only
  rw [if_pos rfl, hloop]
  exact houtcome

end Functions

/-- **The end of the input is taken for the end of the stream.** All of these functions
succeed with what was produced, if no call of `inflate` has failed – whether or not there
was one that has found the end of the stream. The input can be read to its end, and a
mapping has less than 4 GiB. -/
theorem inflate_outcome {zlib : Inflater ζ} {rank : ζ → ℕ → ℕ} (hends : zlib.Ends rank)
    (csum : Option Bytes) (block : Bool) (expectedSize capacity fuel : ℕ)
    (f : Source UInt8) (hf : f.fails = false)
    (m : Mapping) (hmap : m.offset + m.len ≤ m.map.length) (hlen : m.len < 2 ^ 32)
    (hfuel : 2 * rank zlib.init f.content.length + 1 < fuel)
    (hfuelmap : 2 * rank zlib.init m.len + 1 < fuel) :
    ToFileOutcome capacity (.errno .io) (gotInflateToFd zlib capacity fuel f)
      ∧ ToFileOutcome capacity .io (gotInflateToFile zlib capacity fuel f)
      ∧ ToFileOutcome capacity .io (gotInflateToFileFd zlib capacity fuel csum f)
      ∧ ToFileOutcome capacity .io (gotInflateToFileMmap zlib capacity fuel csum m)
      ∧ ToMemOutcome (gotInflateToMem zlib (fun _ => true) block fuel f)
      ∧ ToMemOutcome (gotInflateToMemFd zlib (fun _ => true) block fuel csum expectedSize f)
      ∧ ToMemOutcome (gotInflateToMemMmap zlib (fun _ => true) block fuel csum m) := by
  have hmsound : m.len < 2 ^ 32 ∧ m.offset + m.len ≤ m.map.length ∧ 0 + ([] : Bytes).length ≤ m.len
      ∧ (([] : Bytes) = [] ∨ 0 + ([] : Bytes).length = m.len) :=
    ⟨hlen, hmap, Nat.zero_le _, Or.inl rfl⟩
  have hshort : rank zlib.init f.content.length + 1 < fuel := by omega
  refine ⟨?_, ?_, ?_, ?_, ?_, ?_, ?_⟩
  · exact toFileStart_outcome (supplies_file .io) hends hf hshort
  · exact toFileStart_outcome (supplies_file .io) hends hf hshort
  · exact toFileStart_outcome (supplies_file (.errno .io)) hends hf hshort
  · refine toFileStart_outcome supplies_mmap hends hmsound ?_
    rw [List.length_nil, Nat.sub_zero, Nat.sub_zero]
    omega
  · exact toMemStart_outcome (supplies_file .io) hends windows_not_counts rfl rfl
      (Nat.succ_pos _) (Nat.le_refl GOT_INFLATE_BUFSIZE) (fun _ => rfl) hf hfuel
  · refine toMemStart_outcome (supplies_file (.errno .io)) hends windows_not_counts rfl rfl
      ?_ ?_ (fun h => if_pos h) hf hfuel
    · split
      · exact Nat.succ_pos _
      · split
        · next hsmall => exact hsmall.1
        · exact Nat.succ_pos _
    · split
      · exact Nat.le_refl GOT_INFLATE_BUFSIZE
      · split
        · next hsmall => exact Nat.le_of_lt hsmall.2
        · exact Nat.le_refl GOT_INFLATE_BUFSIZE
  · refine toMemStart_outcome supplies_mmap hends windows_counts rfl rfl
      (Nat.succ_pos _) (Nat.le_refl GOT_INFLATE_BUFSIZE) (fun _ => rfl) hmsound ?_
    rw [List.length_nil, Nat.sub_zero, Nat.sub_zero]
    exact hfuelmap

/-! ### A stream without its end -/

/-- A call of a decompressor for data that ends with a zero. -/
def copyStep (input : Bytes) (availOut : ℕ) : Step Unit UInt8 :=
  match input with
  | [] => ⟨(), .bufError, 0, []⟩
  | b :: _ =>
    if b = 0 then ⟨(), .streamEnd, 1, []⟩
    else if availOut = 0 then ⟨(), .bufError, 0, []⟩
    else ⟨(), .ok, 1, [b]⟩

/-- The copying step consumes no more than it was given. -/
theorem copyStep_consumed_le (input : Bytes) (availOut : ℕ) :
    (copyStep input availOut).consumed ≤ input.length := by
  unfold copyStep
  split
  · exact Nat.zero_le _
  · split
    · exact Nat.succ_pos _
    · split
      · exact Nat.zero_le _
      · exact Nat.succ_pos _

/-- The copying step produces no more than there is room for. -/
theorem copyStep_produced_le (input : Bytes) (availOut : ℕ) :
    (copyStep input availOut).produced.length ≤ availOut := by
  unfold copyStep
  split
  · exact Nat.zero_le _
  · split
    · exact Nat.zero_le _
    · split
      · exact Nat.zero_le _
      · next hroom => exact Nat.pos_of_ne_zero hroom

/-- **A decompressor for data that ends with a zero**, which it copies byte by byte. -/
def zeroEnded : Inflater Unit where
  step _ _ input availOut := copyStep input availOut
  consumed_le _ _ input availOut := copyStep_consumed_le input availOut
  produced_le _ _ input availOut := copyStep_produced_le input availOut
  init := ()

/-- It needs no more calls than there are bytes. -/
theorem zeroEnded_ends : zeroEnded.Ends fun _ left => left where
  ok := by
    intro z input availOut rest h
    show input.length - (copyStep input availOut).consumed + rest < input.length + rest
    have hret : (copyStep input availOut).ret = .ok := h
    unfold copyStep at hret ⊢
    split at hret
    · cases hret
    · split at hret
      · cases hret
      · split at hret
        · cases hret
        · next b input hzero hroom =>
          rw [if_neg hzero, if_neg hroom, List.length_cons]
          show input.length + 1 - 1 + rest < input.length + 1 + rest
          omega
  bufError := by
    intro z input availOut rest h
    show (input = [] ∨ availOut = 0) ∧ (copyStep input availOut).consumed = 0
      ∧ input.length + rest ≤ input.length + rest
    have hret : (copyStep input availOut).ret = .bufError := h
    unfold copyStep at hret ⊢
    split at hret
    · exact ⟨Or.inl rfl, rfl, Nat.le_refl _⟩
    · split at hret
      · cases hret
      · split at hret
        · next b input hzero hroom =>
          rw [if_neg hzero, if_pos hroom]
          exact ⟨Or.inr hroom, rfl, Nat.le_refl _⟩
        · cases hret

/-- One byte, which is not zero. -/
def unended : Bytes := [0x61]

theorem unended_ne_nil : unended ≠ [] := List.cons_ne_nil _ _

/-- The theorem at work on a stream that never ends. -/
theorem inflate_outcome_unended :
    zeroEnded.Ends (fun _ left => left)
      ∧ ToFileOutcome 1 (.errno .io)
        (gotInflateToFd zeroEnded 1 4 ⟨[⟨unended, unended_ne_nil⟩], false⟩)
      ∧ ToFileOutcome 1 .io (gotInflateToFile zeroEnded 1 4 ⟨[⟨unended, unended_ne_nil⟩], false⟩)
      ∧ ToFileOutcome 1 .io
        (gotInflateToFileFd zeroEnded 1 4 none ⟨[⟨unended, unended_ne_nil⟩], false⟩)
      ∧ ToFileOutcome 1 .io (gotInflateToFileMmap zeroEnded 1 4 none ⟨unended, 0, 1⟩)
      ∧ ToMemOutcome
        (gotInflateToMem zeroEnded (fun _ => true) true 4 ⟨[⟨unended, unended_ne_nil⟩], false⟩)
      ∧ ToMemOutcome (gotInflateToMemFd zeroEnded (fun _ => true) true 4 none 1
        ⟨[⟨unended, unended_ne_nil⟩], false⟩)
      ∧ ToMemOutcome (gotInflateToMemMmap zeroEnded (fun _ => true) true 4 none ⟨unended, 0, 1⟩) :=
  ⟨zeroEnded_ends,
    inflate_outcome zeroEnded_ends none true 1 1 4 ⟨[⟨unended, unended_ne_nil⟩], false⟩ rfl
      ⟨unended, 0, 1⟩ (Nat.le_refl 1) (by decide) (by decide) (by decide)⟩

/-- **A stream without its end is accepted**, from a file and from a mapping: no call has
found the end, and the functions succeed with what there is. -/
theorem truncated_accepted :
    (gotInflateToFile zeroEnded 1 4 ⟨[⟨unended, unended_ne_nil⟩], false⟩).1 = none
      ∧ (gotInflateToFile zeroEnded 1 4 ⟨[⟨unended, unended_ne_nil⟩], false⟩).2.outfile = unended
      ∧ ((gotInflateToFile zeroEnded 1 4
          ⟨[⟨unended, unended_ne_nil⟩], false⟩).2.zb.calls.map Call.ret) = [.ok]
      ∧ (gotInflateToMemMmap zeroEnded (fun _ => true) true 4 none ⟨unended, 0, 1⟩).1 = none
      ∧ (gotInflateToMemMmap zeroEnded (fun _ => true) true 4 none ⟨unended, 0, 1⟩).2.outbuf
        = unended
      ∧ ((gotInflateToMemMmap zeroEnded (fun _ => true) true 4 none
          ⟨unended, 0, 1⟩).2.zb.calls.map Call.ret) = [.ok, .bufError] :=
  ⟨rfl, rfl, rfl, rfl, rfl, rfl⟩

end Inflate

end Got

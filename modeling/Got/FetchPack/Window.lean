import Got.FetchPack.PackData

/-!
# The checksum window is not always exact

Where the buffer is full, a read moves the window over the data by as many bytes as were
read (`PackState.Kept.update`). Before it is full all that was read is in it.

When it is filled, a read may be longer than the room that is left. The bytes which are
shifted out to make room are to be followed by the ones behind them, but only one byte is
ever moved, so the second byte is repeated and the last ones get lost (`smear`). This is
the only place where something goes wrong, and it goes unnoticed only if there is no
difference between these bytes (`smear_eq_iff`).
-/

namespace Got

variable {b : Block} {data : Bytes} {off n src : ℕ}

theorem Block.length_read (b : Block) (off n : ℕ) : (b.read off n).length = n := by
  rw [read, List.length_map, List.length_range]

/-- Reading on where one has stopped is reading in one go. -/
theorem Block.read_add (b : Block) (off n m : ℕ) :
    b.read off (n + m) = b.read off n ++ b.read (off + n) m := by
  unfold read
  rw [List.range_add, List.map_append, List.map_map]
  refine congrArg (_ ++ ·) (List.map_congr_left fun i _ => ?_)
  rw [Function.comp_apply, Nat.add_assoc]

/-- What was written is read again. -/
theorem Block.read_writeAt (b : Block) (off : ℕ) (data : Bytes) :
    (b.writeAt off data).read 0 (off + data.length) = b.read 0 off ++ data := by
  rw [read_add, Nat.zero_add]
  refine congrArg₂ (· ++ ·) (List.map_congr_left fun i hi => ?_) (List.ext_getElem ?_ ?_)
  · rw [writeAt, if_pos (by rw [Nat.zero_add]; exact List.mem_range.mp hi)]
  · rw [length_read]
  · intro i hi hi'
    simp only [read, List.getElem_map, List.getElem_range, writeAt]
    rw [if_neg (by omega), Nat.add_sub_cancel_left, List.getD_eq_getElem?_getD,
      List.getElem?_eq_getElem hi', Option.getD_some]

theorem Block.read_write (b : Block) (data : Bytes) :
    (b.write data).read 0 data.length = data := by
  refine List.ext_getElem (length_read _ _ _) fun i hi hi' => ?_
  simp only [read, List.getElem_map, List.getElem_range, write]
  rw [Nat.zero_add, List.getD_eq_getElem?_getD, List.getElem?_eq_getElem hi', Option.getD_some]

theorem Block.read_memmove (b : Block) (src n : ℕ) : (b.memmove src n).read 0 n = b.read src n := by
  have h := read_write b (b.read src n)
  rwa [length_read] at h

namespace FetchPack

variable {s : PackState} {buf seen : Bytes} {k len r : ℕ} {ctx : Bytes}

/-! ## Making room -/

/-- **What becomes of the bytes in the buffer** when as many are shifted out: the second one
is repeated. -/
def smear (k : ℕ) : Bytes → Bytes
  | [] => []
  | b :: t => b :: (List.replicate k (t.headD 0) ++ t).take t.length

theorem smear_zero (data : Bytes) : smear 0 data = data := by
  cases data with
  | nil => rfl
  | cons b t => rw [smear, List.replicate_zero, List.nil_append, List.take_length]

/-- **Nothing is lost** only if there is no difference between the bytes. -/
theorem smear_eq_iff (hk : 0 < k) (data : Bytes) :
    smear k data = data ↔ ∀ x ∈ data.tail, ∀ y ∈ data.tail, x = y := by
  cases data with
  | nil => exact iff_of_true rfl fun _ hx => absurd hx List.not_mem_nil
  | cons b t =>
    rw [smear, List.cons_inj_right, List.tail_cons]
    constructor
    · intro h
      have hget : ∀ i (hi : i < t.length), t[i] = t.headD 0 := by
        intro i
        induction i using Nat.strong_induction_on with
        | _ i ih =>
          intro hi
          have hi' : i < ((List.replicate k (t.headD 0) ++ t).take t.length).length := by
            rwa [h]
          have heq : ((List.replicate k (t.headD 0) ++ t).take t.length)[i] = t[i] := by
            simp only [h]
          rw [List.getElem_take, List.getElem_append] at heq
          split at heq
          · rw [← heq, List.getElem_replicate]
          · next hlt =>
            rw [List.length_replicate] at hlt
            rw [← heq]
            exact ih _ (by rw [List.length_replicate]; omega) _
      intro x hx y hy
      obtain ⟨i, hi, rfl⟩ := List.getElem_of_mem hx
      obtain ⟨j, hj, rfl⟩ := List.getElem_of_mem hy
      rw [hget i hi, hget j hj]
    · intro h
      have ht : t = List.replicate t.length (t.headD 0) := by
        refine List.eq_replicate_iff.mpr ⟨rfl, fun x hx => ?_⟩
        cases t with
        | nil => exact absurd hx List.not_mem_nil
        | cons a t => exact h x hx a List.mem_cons_self
      generalize t.headD 0 = a at ht ⊢
      generalize t.length = n at ht ⊢
      rw [ht, ← List.replicate_add, List.take_replicate]
      exact congrArg (List.replicate · a) (by omega)

/-- One byte that is shifted out, and then the others. -/
theorem smear_succ (b a : UInt8) (t : Bytes) :
    smear (k + 1) (b :: a :: t) = b :: smear k (a :: (a :: t).dropLast) := by
  rw [smear, smear, List.headD_cons, List.replicate_succ, List.cons_append, List.length_cons,
    List.take_succ_cons, List.length_dropLast, List.length_cons, Nat.add_sub_cancel]
  refine congrArg (b :: a :: ·) ?_
  cases t with
  | nil => rfl
  | cons c t =>
    have hlast : a :: c :: t = (a :: c :: t).dropLast ++ [(a :: c :: t).getLast nofun] :=
      (List.dropLast_append_getLast _).symm
    rw [List.dropLast_cons_cons, List.headD_cons, ← List.dropLast_cons_cons]
    conv_lhs => rw [hlast]
    rw [← List.append_assoc, List.take_append_of_le_length]
    simp only [List.length_append, List.length_dropLast, List.length_cons]
    omega

theorem read_succ (b : Block) (off n : ℕ) : b.read off (n + 1) = b off :: b.read (off + 1) n := by
  rw [Nat.add_comm n 1, Block.read_add]
  rfl

/-- **The bytes which are shifted out**, and those which stay. -/
theorem shiftOut_spec (hr : r < SHA1_DIGEST_LENGTH) (len : ℕ) (ctx : Bytes) (b : Block) :
    ∃ ctx' b' len', shiftOut r len ctx b = (ctx', b', len')
      ∧ len' = min len (SHA1_DIGEST_LENGTH - r)
      ∧ ctx' ++ b'.read 0 len' = ctx ++ smear (len - len') (b.read 0 len) := by
  induction len generalizing ctx b with
  | zero => exact ⟨ctx, b, 0, rfl, (Nat.zero_min _).symm, rfl⟩
  | succ len ih =>
    rw [shiftOut]
    split
    · next hroom =>
      obtain ⟨ctx', b', len', hshift, hlen, heq⟩ := ih (ctx ++ [b 0]) (b.memmove 1 1)
      obtain ⟨m, rfl⟩ : ∃ m, len = m + 1 := ⟨len - 1, by omega⟩
      refine ⟨ctx', b', len', hshift, by omega, ?_⟩
      have hmoved : (b.memmove 1 1).read 0 (m + 1) = b 1 :: b.read 1 m := by
        rw [read_succ]
        refine congrArg₂ (· :: ·) rfl (List.map_congr_left fun i _ => ?_)
        show (b.read 1 1).getD (0 + 1 + i) (b (0 + 1 + i)) = b (1 + i)
        rw [List.getD_eq_getElem?_getD, List.getElem?_eq_none
          (by rw [Block.length_read]; omega), Option.getD_none, Nat.zero_add]
      have hrest : (b.read 1 (m + 1)).dropLast = b.read 1 m := by
        rw [Block.read_add, List.dropLast_append_of_ne_nil (by exact nofun)]
        exact List.append_nil _
      rw [heq, hmoved, List.append_assoc, show m + 1 + 1 - len' = m + 1 - len' + 1 by omega,
        read_succ b 0, Nat.zero_add, read_succ b 1, smear_succ, ← read_succ b 1, hrest]
      rfl
    · exact ⟨ctx, b, len + 1, rfl, by omega, by rw [Nat.sub_self, smear_zero]⟩

/-! ## Reads -/

namespace PackState

/-- **The buffer is not full**: it has all that was read. -/
structure Fills (s : PackState) (seen : Bytes) : Prop where
  ctx : s.sha1Ctx = []
  len : s.sha1BufLen = seen.length
  buf : s.sha1Buf.read 0 seen.length = seen

/-- **The window is full**, and all other bytes were mixed in. -/
structure Kept (s : PackState) (seen : Bytes) : Prop where
  len : s.sha1BufLen = SHA1_DIGEST_LENGTH
  all : s.sha1Ctx ++ s.sha1Buf.read 0 SHA1_DIGEST_LENGTH = seen

theorem Fills.init (stack : Block) : (PackState.init stack).Fills [] := ⟨rfl, rfl, rfl⟩

/-- **Moving the window.** -/
theorem Kept.update (h : s.Kept seen) (buf : Bytes) : (s.update buf).Kept (seen ++ buf) := by
  have hall := h.all
  unfold PackState.update
  dsimp only
  split
  · next hshort =>
    rw [if_neg (by rw [h.len]; exact lt_irrefl _)]
    obtain ⟨m, hm⟩ : ∃ m, SHA1_DIGEST_LENGTH = buf.length + m :=
      ⟨_, (Nat.add_sub_of_le hshort.le).symm⟩
    refine ⟨h.len, ?_⟩
    dsimp only
    rw [h.len, show SHA1_DIGEST_LENGTH - buf.length = m by omega, hm, Nat.add_comm buf.length m,
      Block.read_writeAt, Block.read_memmove, ← hall, hm, Block.read_add, Nat.zero_add]
    simp only [List.append_assoc]
  · next hlong =>
    refine ⟨rfl, ?_⟩
    dsimp only
    have hlen : (buf.drop (buf.length - SHA1_DIGEST_LENGTH)).length = SHA1_DIGEST_LENGTH := by
      rw [List.length_drop]
      omega
    have hwrite := Block.read_write s.sha1Buf (buf.drop (buf.length - SHA1_DIGEST_LENGTH))
    rw [hlen] at hwrite
    rw [h.len, hwrite, hall, List.append_assoc, List.take_append_drop]

/-- **Filling the buffer.** What is too much is shifted out. -/
theorem Fills.update (h : s.Fills seen) (hseen : seen.length < SHA1_DIGEST_LENGTH) (buf : Bytes) :
    (seen.length + buf.length < SHA1_DIGEST_LENGTH → (s.update buf).Fills (seen ++ buf))
      ∧ (buf.length < SHA1_DIGEST_LENGTH → SHA1_DIGEST_LENGTH ≤ seen.length + buf.length →
        (s.update buf).Kept
          (smear (seen.length + buf.length - SHA1_DIGEST_LENGTH) seen ++ buf))
      ∧ (SHA1_DIGEST_LENGTH ≤ buf.length → (s.update buf).Kept (seen ++ buf)) := by
  unfold PackState.update
  dsimp only
  rw [h.len, if_pos hseen]
  refine ⟨fun hroom => ?_, fun hshort hfull => ?_, fun hlong => ?_⟩
  · rw [if_pos (by omega)]
    obtain ⟨ctx, b, len, hshift, hlen, heq⟩ :=
      shiftOut_spec (by omega : buf.length < SHA1_DIGEST_LENGTH) seen.length s.sha1Ctx s.sha1Buf
    obtain rfl : len = seen.length := by omega
    rw [Nat.sub_self, smear_zero, h.buf, h.ctx, List.nil_append] at heq
    have hctx : ctx = [] := by
      have := congrArg List.length heq
      rw [List.length_append, Block.length_read] at this
      exact List.eq_nil_of_length_eq_zero (by omega)
    rw [hctx, List.nil_append] at heq
    rw [hshift]
    refine ⟨hctx, List.length_append.symm, ?_⟩
    dsimp only
    rw [List.length_append, Block.read_writeAt, heq]
  · rw [if_pos hshort]
    obtain ⟨ctx, b, len, hshift, hlen, heq⟩ :=
      shiftOut_spec hshort seen.length s.sha1Ctx s.sha1Buf
    have hfull' : len + buf.length = SHA1_DIGEST_LENGTH := by omega
    rw [hshift]
    refine ⟨hfull', ?_⟩
    dsimp only
    rw [← hfull', Block.read_writeAt, ← List.append_assoc, heq, h.buf, h.ctx, List.nil_append]
    refine congrArg (smear · seen ++ buf) ?_
    omega
  · rw [if_neg (Nat.not_lt.mpr hlong)]
    refine ⟨rfl, ?_⟩
    dsimp only
    have hlen : (buf.drop (buf.length - SHA1_DIGEST_LENGTH)).length = SHA1_DIGEST_LENGTH := by
      rw [List.length_drop]
      omega
    have hwrite := Block.read_write s.sha1Buf (buf.drop (buf.length - SHA1_DIGEST_LENGTH))
    rw [hlen] at hwrite
    rw [hwrite, h.buf, h.ctx, List.nil_append, List.append_assoc, List.take_append_drop]

/-- However the pack is cut into reads, the window has the end of what was seen. -/
theorem Kept.foldl (h : s.Kept seen) (reads : List Bytes) :
    (reads.foldl PackState.update s).Kept (seen ++ reads.flatten) := by
  induction reads generalizing s seen with
  | nil => rwa [List.flatten_nil, List.append_nil]
  | cons buf rest ih =>
    rw [List.flatten_cons, ← List.append_assoc]
    exact ih (h.update buf)

/-- **The window is exact**: all bytes but the last ones were mixed in, once and in order, and
these are in the buffer. -/
structure Exact (s : PackState) (data : Bytes) : Prop where
  ctx : s.sha1Ctx = data.take (data.length - SHA1_DIGEST_LENGTH)
  len : s.sha1BufLen = SHA1_DIGEST_LENGTH
  buf : s.sha1Buf.read 0 SHA1_DIGEST_LENGTH = data.drop (data.length - SHA1_DIGEST_LENGTH)

/-- All bytes are there, one after the other. -/
theorem exact_iff_kept {data : Bytes} (hlen : SHA1_DIGEST_LENGTH ≤ data.length) :
    s.Exact data ↔ s.Kept data := by
  constructor
  · intro h
    exact ⟨h.len, by rw [h.ctx, h.buf, List.take_append_drop]⟩
  · intro h
    have hall := h.all
    have hlength := congrArg List.length hall
    rw [List.length_append, Block.length_read] at hlength
    have hctx : s.sha1Ctx.length = data.length - SHA1_DIGEST_LENGTH := by omega
    refine ⟨?_, h.len, ?_⟩
    · rw [← hctx, ← hall, List.take_left]
    · rw [← hctx, ← hall, List.drop_left]

theorem Kept.unique {seen' : Bytes} (h : s.Kept seen) (h' : s.Kept seen') : seen = seen' :=
  h.all.symm.trans h'.all

end PackState

/-- **The read that fills the buffer**: if it is short, and longer than the room that is left,
then the bytes which were read before it are the same, but for the first one. -/
def KeepsWindow (seen : Bytes) : List Bytes → Prop
  | [] => True
  | buf :: rest =>
    if seen.length + buf.length < SHA1_DIGEST_LENGTH then KeepsWindow (seen ++ buf) rest
    else buf.length < SHA1_DIGEST_LENGTH → SHA1_DIGEST_LENGTH < seen.length + buf.length →
      ∀ x ∈ seen.tail, ∀ y ∈ seen.tail, x = y

open PackState in
/-- **Any sequence of reads.** -/
theorem exact_foldl_iff {reads : List Bytes} (h : s.Fills seen)
    (hseen : seen.length < SHA1_DIGEST_LENGTH)
    (hlen : SHA1_DIGEST_LENGTH ≤ (seen ++ reads.flatten).length) :
    (reads.foldl PackState.update s).Exact (seen ++ reads.flatten) ↔ KeepsWindow seen reads := by
  induction reads generalizing s seen with
  | nil =>
    rw [List.flatten_nil, List.append_nil] at hlen
    omega
  | cons buf rest ih =>
    obtain ⟨hroom, hshort, hlong⟩ := h.update hseen buf
    rw [List.flatten_cons, ← List.append_assoc] at hlen ⊢
    rw [List.foldl_cons, KeepsWindow]
    split
    · next hlt => exact ih (hroom hlt) (by rwa [List.length_append]) hlen
    next hfull =>
    rw [exact_iff_kept hlen]
    by_cases hbuf : buf.length < SHA1_DIGEST_LENGTH
    · have hkept := (hshort hbuf (by omega)).foldl rest
      have hiff : (rest.foldl PackState.update (s.update buf)).Kept (seen ++ buf ++ rest.flatten)
          ↔ smear (seen.length + buf.length - SHA1_DIGEST_LENGTH) seen = seen := by
        constructor
        · intro h
          have heq := h.unique hkept
          rw [List.append_left_inj, List.append_left_inj] at heq
          exact heq.symm
        · intro heq
          rwa [heq] at hkept
      rw [hiff]
      rcases Nat.eq_or_lt_of_le (Nat.not_lt.mp hfull) with heq | hlt
      · rw [← heq, Nat.sub_self, smear_zero]
        exact iff_of_true rfl fun _ h => absurd h (lt_irrefl _)
      · rw [smear_eq_iff (by omega)]
        exact ⟨fun h _ _ => h, fun h => h hbuf hlt⟩
    · exact iff_of_true ((hlong (Nat.not_lt.mp hbuf)).foldl rest) fun h => absurd h hbuf

/-! ## The loops -/

/-- Packets of other channels make no difference. -/
theorem readSidebands_eq_ok {packets : List Packet} {s' : PackState}
    (h : readSidebands packets s = .ok s') :
    s' = (Input.sidebands packets).reads.foldl PackState.update s := by
  induction packets generalizing s with
  | nil => exact (Except.ok.inj h).symm
  | cons p rest ih =>
    rw [readSidebands] at h
    split at h
    · exact nomatch h
    split at h
    · next hdata =>
      rw [Input.reads, List.filter_cons_of_pos (by simpa using hdata)]
      exact ih h
    next hdata =>
    rw [Input.reads, List.filter_cons_of_neg (by simpa using hdata)]
    split at h
    · obtain ⟨_, -, h⟩ := bind_eq_ok_iff.mp h
      exact ih h
    split at h
    · exact nomatch h
    split at h
    · split at h
      · exact ih h
      · exact nomatch h
    · exact nomatch h

/-- **The pack is passed on whole.** Reading without side-band updates the state piece by piece, in
the order of the stream. -/
theorem readPlain_eq (fuel : ℕ) (stream : Bytes) (s : PackState) :
    readPlain fuel stream s = (pieces fuel stream).foldl PackState.update s := by
  induction fuel generalizing stream s with
  | zero => rfl
  | succ fuel ih =>
    rw [readPlain, pieces]
    split
    · rfl
    · exact ih _ _

theorem receive_eq_ok {stack : Block} {input : Input} (h : receive stack input = .ok s) :
    s = input.reads.foldl PackState.update (.init stack) := by
  cases input with
  | sidebands packets => exact readSidebands_eq_ok h
  | plain stream => exact (Except.ok.inj h).symm.trans (readPlain_eq _ _ _)

/-! ## The whole pack -/

/-- **The checksum window is exact** if and only if the read that fills the buffer finds room
in it, or no difference between what is there. Then the checksum that comes with the
pack is compared with that of its data. -/
theorem receive_exact_iff (sha1 : Bytes → Sha1) {stack : Block} {input : Input}
    (h : receive stack input = .ok s)
    (hlen : SHA1_DIGEST_LENGTH ≤ input.reads.flatten.length) :
    (s.Exact input.reads.flatten ↔ KeepsWindow [] input.reads)
      ∧ (KeepsWindow [] input.reads →
        ((∃ packSha1, finish sha1 s = .ok packSha1)
          ↔ (sha1 (input.reads.flatten.take
              (input.reads.flatten.length - SHA1_DIGEST_LENGTH))).val
            = input.reads.flatten.drop (input.reads.flatten.length - SHA1_DIGEST_LENGTH))) := by
  have hiff : s.Exact input.reads.flatten ↔ KeepsWindow [] input.reads := by
    rw [receive_eq_ok h]
    exact exact_foldl_iff (PackState.Fills.init stack) (by decide) hlen
  refine ⟨hiff, fun hkeeps => ?_⟩
  have hexact := hiff.mpr hkeeps
  unfold finish
  rw [hexact.len, hexact.ctx, hexact.buf]
  have hcmp := @memcmp_eq_iff
    (sha1 (input.reads.flatten.take (input.reads.flatten.length - SHA1_DIGEST_LENGTH))).val
    (input.reads.flatten.drop (input.reads.flatten.length - SHA1_DIGEST_LENGTH)) (by
      rw [List.length_drop]
      exact (sha1 _).2.trans (by omega))
  rw [← hcmp]
  constructor
  · rintro ⟨packSha1, hfinish⟩
    by_contra hne
    rw [if_pos (Or.inr hne)] at hfinish
    exact nomatch hfinish
  · intro heq
    exact ⟨_, if_neg (fun h => h.elim (fun h => h rfl) fun h => h heq)⟩

/-- Two packets of ten bytes, with a message in between. -/
theorem receive_exact_iff_packets :
    ∃ s, receive (fun _ => 0) (.sidebands [⟨1, (List.range 10).map Nat.toUInt8⟩, ⟨2, [0x21]⟩,
        ⟨1, (List.range 10).map Nat.toUInt8⟩]) = .ok s
      ∧ s.Exact ((List.range 10 ++ List.range 10).map Nat.toUInt8) := by
  refine ⟨_, rfl, ?_⟩
  have hiff := (@receive_exact_iff _ (fun _ => ⟨List.replicate 20 0, rfl⟩) (fun _ => 0)
    (.sidebands [⟨1, (List.range 10).map Nat.toUInt8⟩, ⟨2, [0x21]⟩,
      ⟨1, (List.range 10).map Nat.toUInt8⟩]) rfl (by decide)).1
  exact hiff.mpr fun _ h => absurd h (by decide)

/-- **A packet of three bytes and one of eighteen**: the second byte is mixed in, but it takes
the place of the third one, which is gone. -/
theorem receive_not_exact : ¬ ∀ (stack : Block) (input : Input) (s : PackState),
    receive stack input = .ok s → SHA1_DIGEST_LENGTH ≤ input.reads.flatten.length →
      s.Exact input.reads.flatten := by
  intro h
  have hexact := h (fun _ => 0)
    (.sidebands [⟨1, [1, 2, 3]⟩, ⟨1, List.replicate 18 4⟩]) _ rfl (by decide)
  exact absurd hexact.buf (by decide)

end FetchPack

end Got

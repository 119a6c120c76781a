import Got.Pack.Dump

/-!
# The capacities of the buffers of a dump

While a chain of deltas is dumped in memory, the code keeps one number for the two
buffers that take turns: `base_bufsz`, which is the size of the base at first, and the
capacity of both buffers from then on – if it was below `max_size`, the largest size
that the chain declares. The capacities themselves are nowhere recorded, and are added
to the state here (`dumpLoop_stepWithCap`).

A base may inflate to more than its header says, and so to more than `max_size`. Then
`base_bufsz` remains what it is when the buffers switch, and the new base is in the
buffer that was allocated with `max_size` bytes. Where the pack file is not mapped,
already the buffer that the base is inflated to may be too small: it is allocated with
`max_size` bytes, if that is less than `GOT_INFLATE_BUFSIZE`, and zlib is told that there
is room for `GOT_INFLATE_BUFSIZE`.
-/

namespace Got

open CopyProgram

def GOT_INFLATE_BUFSIZE : ℕ := 32768

/-! ## Inflating to memory -/

/-- The buffer to which data is inflated. -/
structure InflateBuf where
  /-- As how many times `GOT_INFLATE_BUFSIZE` the buffer was last allocated. -/
  nbuf : ℕ
  /-- As how many bytes the buffer was last allocated. -/
  cap : ℕ
  outlen : ℕ
  /-- How much room there is, for all that zlib knows. -/
  room : ℕ

/-- Something was put out. -/
def InflateBuf.put (buf : InflateBuf) (avail : ℕ) : InflateBuf :=
  { buf with outlen := buf.outlen + avail }

/-- The buffer grows. A file that is not mapped makes the new room known one round later. -/
def InflateBuf.grow (mapped : Bool) (buf : InflateBuf) : InflateBuf where
  nbuf := buf.nbuf + 1
  cap := (buf.nbuf + 1) * GOT_INFLATE_BUFSIZE
  outlen := buf.outlen
  room := (if mapped then buf.nbuf + 1 else buf.nbuf) * GOT_INFLATE_BUFSIZE - buf.outlen

/-- The buffer at the start of `got_inflate_to_mem_mmap` and `got_inflate_to_mem_fd`. Only the
second is told what size to expect. -/
def inflateStart (mapped : Bool) (expectedSize : ℕ) : InflateBuf where
  nbuf := 1
  cap := if ¬mapped ∧ 0 < expectedSize ∧ expectedSize < GOT_INFLATE_BUFSIZE then expectedSize
    else GOT_INFLATE_BUFSIZE
  outlen := 0
  room := GOT_INFLATE_BUFSIZE

/-- The loop of both functions: what zlib puts out at each call, the last of which says that there
is no more. -/
def inflateLoop (mapped : Bool) : InflateBuf → List ℕ → InflateBuf
  | buf, [] => buf
  | buf, [avail] => buf.put avail
  | buf, avail :: next :: rounds =>
    inflateLoop mapped ((buf.put avail).grow mapped) (next :: rounds)

/-- **zlib never puts out more than it has room for.** -/
def KeepsRoom (mapped : Bool) : InflateBuf → List ℕ → Prop
  | _, [] => True
  | buf, [avail] => avail ≤ buf.room
  | buf, avail :: next :: rounds =>
    avail ≤ buf.room ∧ KeepsRoom mapped ((buf.put avail).grow mapped) (next :: rounds)

/-- What zlib takes for room is there. -/
def InflateBuf.RoomIn (buf : InflateBuf) (cap : ℕ) : Prop := buf.outlen + buf.room ≤ cap

/-- Growing the buffer makes room for as much as it says there is. -/
theorem roomIn_grow (mapped : Bool) {buf : InflateBuf} {avail : ℕ} (havail : avail ≤ buf.room)
    (h : buf.RoomIn (buf.nbuf * GOT_INFLATE_BUFSIZE)) :
    ((buf.put avail).grow mapped).RoomIn ((buf.put avail).grow mapped).cap := by
  have hout : buf.outlen + avail ≤ buf.nbuf * GOT_INFLATE_BUFSIZE :=
    (Nat.add_le_add_left havail _).trans h
  have hnext : buf.nbuf * GOT_INFLATE_BUFSIZE ≤ (buf.nbuf + 1) * GOT_INFLATE_BUFSIZE :=
    Nat.mul_le_mul_right _ (Nat.le_succ _)
  show buf.outlen + avail + ((if mapped then buf.nbuf + 1 else buf.nbuf) * GOT_INFLATE_BUFSIZE
    - (buf.outlen + avail)) ≤ (buf.nbuf + 1) * GOT_INFLATE_BUFSIZE
  split <;> omega

/-- Once the buffer has grown, all that is put out is in it. -/
theorem outlen_inflateLoop_le {mapped : Bool} {rounds : List ℕ} {buf : InflateBuf}
    (hcap : buf.cap = buf.nbuf * GOT_INFLATE_BUFSIZE) (hroom : buf.RoomIn buf.cap)
    (h : KeepsRoom mapped buf rounds) :
    (inflateLoop mapped buf rounds).outlen ≤ (inflateLoop mapped buf rounds).cap := by
  induction rounds generalizing buf with
  | nil => exact (Nat.le_add_right _ _).trans hroom
  | cons avail rounds ih =>
    cases rounds with
    | nil => exact (Nat.add_le_add_left (show avail ≤ buf.room from h) _).trans hroom
    | cons next rounds => exact ih rfl (roomIn_grow mapped h.1 (hcap ▸ hroom)) h.2

/-- **When what is inflated fits its buffer**: if it is no more than was expected, or if the
buffer was not made smaller for that, or was made larger again. -/
theorem outlen_le_cap_iff {mapped : Bool} {expectedSize : ℕ} {rounds : List ℕ} (hne : rounds ≠ [])
    (h : KeepsRoom mapped (inflateStart mapped expectedSize) rounds) :
    (inflateLoop mapped (inflateStart mapped expectedSize) rounds).outlen
        ≤ (inflateLoop mapped (inflateStart mapped expectedSize) rounds).cap
      ↔ (inflateLoop mapped (inflateStart mapped expectedSize) rounds).outlen ≤ expectedSize
        ∨ mapped ∨ expectedSize = 0 ∨ GOT_INFLATE_BUFSIZE ≤ expectedSize ∨ 2 ≤ rounds.length := by
  match rounds, hne, h with
  | [avail], _, h =>
    have havail : avail ≤ GOT_INFLATE_BUFSIZE := h
    show 0 + avail ≤ (if _ then _ else _) ↔ 0 + avail ≤ _ ∨ _
    rw [Nat.zero_add, List.length_singleton]
    cases mapped <;> simp only [Bool.false_eq_true, not_true_eq_false, not_false_eq_true, true_and,
      false_and, if_false, true_or, or_true, false_or]
    · split <;> omega
    · exact iff_of_true havail trivial
  | avail :: next :: rounds, _, h =>
    have hstart : (inflateStart mapped expectedSize).RoomIn (1 * GOT_INFLATE_BUFSIZE) := by
      show 0 + GOT_INFLATE_BUFSIZE ≤ 1 * GOT_INFLATE_BUFSIZE
      omega
    have hgrow := roomIn_grow mapped h.1 hstart
    have hend := @outlen_inflateLoop_le mapped (next :: rounds) _ rfl hgrow h.2
    refine iff_of_true hend ?_
    exact Or.inr (Or.inr (Or.inr (Or.inr (Nat.succ_le_succ (Nat.succ_le_succ (Nat.zero_le _))))))

/-! ## Buffers with their capacities -/

/-- The two buffers, and how many bytes each was allocated with. -/
structure CapBufs extends Bufs where
  baseCap : ℕ
  accumCap : ℕ

/-- The buffers switch roles, and their capacities with them. -/
def CapBufs.switch (maxSize : ℕ) (grown : Block) (bufs : CapBufs) (out : Bytes) : CapBufs where
  toBufs := bufs.toBufs.switch maxSize grown out
  baseCap := bufs.accumCap
  accumCap := if bufs.baseBufsz < maxSize then maxSize else bufs.baseCap

/-- Apply one delta in memory. -/
def stepWithCap (maxSize : ℕ) (grown : Block) (bufs : CapBufs) (deltaBuf : Bytes) :
    Except GotErr (Bytes × CapBufs) := do
  let out ← gotDeltaApplyInMem bufs.baseBuf bufs.baseBufsz deltaBuf maxSize
  return (out, bufs.switch maxSize grown out)

section

variable (inflate : Bytes → Except GotErr Bytes) {pack : Pack}

/-- **The capacities are only looked at**: the dump is the same without them. -/
theorem dumpLoop_stepWithCap (maxSize : ℕ) (grown : Block) (deltas : DeltaChain) (bufs : CapBufs)
    (out : Bytes) : dumpLoop inflate (stepWithCap maxSize grown) pack deltas bufs out
      = dumpLoop inflate (stepInMem maxSize grown) pack deltas bufs.toBufs out := by
  induction deltas generalizing bufs out with
  | nil => rfl
  | cons delta rest ih =>
    rw [dumpLoop, dumpLoop]
    refine congrArg (readDeltaData inflate pack delta.dataOffset >>= ·) (funext fun deltaBuf => ?_)
    unfold stepWithCap stepInMem
    cases gotDeltaApplyInMem bufs.baseBuf bufs.baseBufsz deltaBuf maxSize with
    | error e => rfl
    | ok out => exact ih (bufs.switch maxSize grown out) out

/-- **The states in which the loop goes through its body**, each with the delta it is about to
apply. -/
def dumpStates {S : Type} (step : S → Bytes → Except GotErr (Bytes × S)) (pack : Pack) :
    DeltaChain → S → List (Delta × S)
  | [], _ => []
  | delta :: rest, s => (delta, s) ::
    match readDeltaData inflate pack delta.dataOffset >>= step s with
    | .ok (_, s) => dumpStates step pack rest s
    | .error _ => []

/-- **The buffers are large enough** for a delta: the size recorded for the base is in the buffer
of the base, and the result which the delta declares fits the other. -/
structure FitsBufs (pack : Pack) (delta : Delta) (bufs : CapBufs) : Prop where
  base : bufs.baseBufsz ≤ bufs.baseCap
  accum : ∀ deltaBuf sizes, readDeltaData inflate pack delta.dataOffset = .ok deltaBuf →
    gotDeltaGetSizes deltaBuf = .ok sizes → sizes.2.toNat ≤ bufs.accumCap

variable (pack) in
/-- **A chain that is dumped in memory**: its base is inflated by rounds of zlib, and the largest
size the chain declares is found. The elements behind the base are deltas. -/
structure InMemDump where
  base : Delta
  rest : DeltaChain
  data : Bytes
  maxSize : UInt64
  rounds : List ℕ
  inflated : inflateBase inflate pack base = .ok data
  largest : gotPackGetDeltaChainMaxSize inflate pack (base :: rest) = .ok maxSize
  deltas : ∀ delta ∈ rest, ¬isPlainType delta.type
  rounds_ne_nil : rounds ≠ []
  keepsRoom : KeepsRoom pack.mapped (inflateStart pack.mapped maxSize.toNat) rounds
  outlen : (inflateLoop pack.mapped (inflateStart pack.mapped maxSize.toNat) rounds).outlen
    = data.length

namespace InMemDump

variable {inflate} (d : InMemDump inflate pack) (heap : Heap)

/-- The buffers before the first delta. -/
def start : CapBufs where
  baseBuf := heap.base.write d.data
  baseBufsz := d.data.length
  accumBuf := heap.accum
  baseCap := (inflateLoop pack.mapped (inflateStart pack.mapped d.maxSize.toNat) d.rounds).cap
  accumCap := d.maxSize.toNat

/-- **The buffers are large enough in every iteration.** -/
def WithinCapacity : Prop :=
  ∀ p ∈ dumpStates inflate (stepWithCap d.maxSize.toNat heap.grown) pack d.rest (d.start heap),
    FitsBufs inflate pack p.1 p.2

/-- The first delta can be applied to the base. -/
def FirstApplies : Prop :=
  ∃ first is, d.rest.head? = some first ∧ deltaProgram inflate pack first = some is
    ∧ InBounds d.data.length is

end InMemDump

/-! ## Sizes that are declared -/

variable {inflate}

/-- No delta of a chain declares a result that is larger than the largest size. -/
theorem chainMaxSizeFrom_le {deltas : DeltaChain} {resultSize maxSize m : UInt64}
    (h : chainMaxSizeFrom inflate pack deltas resultSize maxSize = .ok m) :
    maxSize.toNat ≤ m.toNat ∧ ∀ delta ∈ deltas, ¬isPlainType delta.type → ∀ deltaBuf sizes,
      readDeltaData inflate pack delta.dataOffset = .ok deltaBuf →
      gotDeltaGetSizes deltaBuf = .ok sizes → sizes.2.toNat ≤ m.toNat := by
  induction deltas generalizing resultSize maxSize with
  | nil =>
    obtain rfl : maxSize = m := Except.ok.inj h
    exact ⟨Nat.le_refl _, fun delta hd => absurd hd List.not_mem_nil⟩
  | cons delta rest ih =>
    rw [chainMaxSizeFrom] at h
    obtain ⟨⟨bs, rs⟩, hsizes, h⟩ := bind_eq_ok_iff.mp h
    dsimp only at h
    obtain ⟨hle, hall⟩ := ih h
    rw [toNat_larger, toNat_larger] at hle
    refine ⟨by omega, fun delta' hd hp deltaBuf sizes hread hget => ?_⟩
    rcases List.mem_cons.mp hd with rfl | hd
    · rw [deltaSizes, if_neg hp, hread, ok_bind, hget] at hsizes
      obtain rfl := Except.ok.inj hsizes
      exact (Nat.le_max_left _ _).trans hle
    · exact hall delta' hd hp deltaBuf sizes hread hget

end

/-! ## The run -/

/-- There is room for all that the chain declares: a base within its buffer and no larger than the
largest size, and a result of that size. -/
structure Roomy (maxSize : ℕ) (bufs : CapBufs) : Prop where
  base : bufs.baseBufsz ≤ bufs.baseCap
  max : bufs.baseBufsz ≤ maxSize
  accum : maxSize ≤ bufs.accumCap

variable {maxSize : ℕ} {grown : Block} {bufs : CapBufs}

theorem CapBufs.switch_baseBufsz (maxSize : ℕ) (grown : Block) (bufs : CapBufs) (out : Bytes) :
    (bufs.switch maxSize grown out).baseBufsz
      = if bufs.baseBufsz < maxSize then maxSize else bufs.baseBufsz :=
  Got.switch_baseBufsz maxSize grown bufs.toBufs out

/-- **One step**: the base buffer becomes as large as the accumulation buffer is, or it was large
enough. -/
theorem Roomy.switch (h : Roomy maxSize bufs) (grown : Block) (out : Bytes) :
    Roomy maxSize (bufs.switch maxSize grown out) := by
  have hsz : (bufs.switch maxSize grown out).baseBufsz = maxSize := by
    rw [CapBufs.switch_baseBufsz]
    have hmax := h.max
    split <;> omega
  refine ⟨(Nat.le_of_eq hsz).trans h.accum, Nat.le_of_eq hsz, ?_⟩
  show maxSize ≤ if bufs.baseBufsz < maxSize then maxSize else bufs.baseCap
  split
  · exact Nat.le_refl _
  · next hge => exact (Nat.not_lt.mp hge).trans h.base

/-- One application with buffers succeeds when the delta does, and turns the buffers round. -/
theorem stepWithCap_eq_ok_iff {bufs' : CapBufs} {deltaBuf out : Bytes} :
    stepWithCap maxSize grown bufs deltaBuf = .ok (out, bufs')
      ↔ gotDeltaApplyInMem bufs.baseBuf bufs.baseBufsz deltaBuf maxSize = .ok out
        ∧ bufs.switch maxSize grown out = bufs' := by
  unfold stepWithCap
  cases gotDeltaApplyInMem bufs.baseBuf bufs.baseBufsz deltaBuf maxSize with
  | error e => exact iff_of_false (fun h => nomatch h) fun h => nomatch h.1
  | ok out' =>
    constructor
    · intro h
      obtain ⟨rfl, rfl⟩ := Prod.mk.inj (Except.ok.inj h)
      exact ⟨rfl, rfl⟩
    · rintro ⟨h, rfl⟩
      rw [Except.ok.inj h]
      rfl

section

variable {inflate : Bytes → Except GotErr Bytes} {pack : Pack}

/-- **A run**: there is room in every state, if there is room in the first. -/
theorem roomy_of_mem_dumpStates {deltas : DeltaChain} (h : Roomy maxSize bufs) :
    ∀ p ∈ dumpStates inflate (stepWithCap maxSize grown) pack deltas bufs,
      p.1 ∈ deltas ∧ Roomy maxSize p.2 := by
  induction deltas generalizing bufs with
  | nil => exact fun p hp => absurd hp List.not_mem_nil
  | cons delta rest ih =>
    intro p hp
    rcases List.mem_cons.mp hp with rfl | hp
    · exact ⟨List.mem_cons_self, h⟩
    · split at hp
      · next out bufs' hstep =>
        obtain ⟨deltaBuf, -, hstep⟩ := bind_eq_ok_iff.mp hstep
        obtain rfl := (stepWithCap_eq_ok_iff.mp hstep).2
        obtain ⟨hmem, hroom⟩ := ih (h.switch grown out) p hp
        exact ⟨List.mem_cons_of_mem _ hmem, hroom⟩
      · exact absurd hp List.not_mem_nil

namespace InMemDump

variable (d : InMemDump inflate pack) (heap : Heap)

/-- What a delta of the chain declares is no more than the largest size. -/
theorem declared_le {delta : Delta} (hmem : delta ∈ d.rest) {deltaBuf : Bytes}
    {sizes : UInt64 × UInt64} (hread : readDeltaData inflate pack delta.dataOffset = .ok deltaBuf)
    (hsizes : gotDeltaGetSizes deltaBuf = .ok sizes) : sizes.2.toNat ≤ d.maxSize.toNat :=
  (chainMaxSizeFrom_le d.largest).2 delta (List.mem_cons_of_mem _ hmem)
    (d.deltas delta hmem) deltaBuf
    sizes hread hsizes

/-- The base is in its buffer when the loop begins. -/
theorem start_le_cap_iff : (d.start heap).baseBufsz ≤ (d.start heap).baseCap
    ↔ d.data.length ≤ d.maxSize.toNat ∨ pack.mapped ∨ d.maxSize.toNat = 0
      ∨ GOT_INFLATE_BUFSIZE ≤ d.maxSize.toNat ∨ 2 ≤ d.rounds.length := by
  have h := outlen_le_cap_iff d.rounds_ne_nil d.keepsRoom
  rw [d.outlen] at h
  exact h

/-- The first delta is applied if and only if it can be. -/
theorem firstApplies_iff {first : Delta} {more : DeltaChain} (hrest : d.rest = first :: more) :
    d.FirstApplies ↔ ∃ out bufs, readDeltaData inflate pack first.dataOffset >>=
      stepWithCap d.maxSize.toNat heap.grown (d.start heap) = .ok (out, bufs) := by
  constructor
  · rintro ⟨first', is, hhead, hprog, hin⟩
    obtain rfl : first = first' := by
      rw [hrest] at hhead
      exact Option.some.inj hhead
    obtain ⟨deltaBuf, hread, hr⟩ := deltaProgram_eq_some_iff.mp hprog
    obtain ⟨sizes, hsizes, hsize⟩ := gotDeltaGetSizes_of_readDelta hr
    have hmem : first ∈ d.rest := hrest ▸ List.mem_cons_self
    have happly := (gotDeltaApplyInMem_eq_ok_iff (d.start heap).baseBuf d.data.length
      d.maxSize.toNat deltaBuf _).mpr ⟨is, hr, hin, hsize ▸ d.declared_le hmem hread hsizes, rfl⟩
    exact ⟨_, _, bind_eq_ok_iff.mpr ⟨deltaBuf, hread, stepWithCap_eq_ok_iff.mpr ⟨happly, rfl⟩⟩⟩
  · rintro ⟨out, bufs, h⟩
    obtain ⟨deltaBuf, hread, hstep⟩ := bind_eq_ok_iff.mp h
    obtain ⟨is, hr, hin, -, -⟩ :=
      (gotDeltaApplyInMem_eq_ok_iff _ _ _ _ _).mp (stepWithCap_eq_ok_iff.mp hstep).1
    exact ⟨first, is, by rw [hrest]; rfl, deltaProgram_eq_some_iff.mpr ⟨deltaBuf, hread, hr⟩, hin⟩

/-- A base that is no larger than the largest size makes no trouble. -/
theorem withinCapacity_of_le (h : d.data.length ≤ d.maxSize.toNat) : d.WithinCapacity heap := by
  have hroom : Roomy d.maxSize.toNat (d.start heap) :=
    ⟨(d.start_le_cap_iff heap).mpr (Or.inl h), h, Nat.le_refl _⟩
  intro p hp
  obtain ⟨hmem, hp⟩ := roomy_of_mem_dumpStates hroom p hp
  exact ⟨hp.base, fun deltaBuf sizes hread hsizes =>
    (d.declared_le hmem hread hsizes).trans hp.accum⟩

/-- **When the buffers are large enough in every iteration.** The base is in one buffer, and the
other one is made for the largest size that is declared. They change places after each delta, while
the size that is recorded is changed only if it is less: a base that turned out to be longer leaves
its size to the buffer that is shorter. And without a mapping, the first buffer may be cut short
before. -/
theorem withinCapacity_iff : d.WithinCapacity heap
    ↔ d.rest = [] ∨ d.data.length ≤ d.maxSize.toNat
      ∨ ((pack.mapped ∨ d.maxSize.toNat = 0 ∨ GOT_INFLATE_BUFSIZE ≤ d.maxSize.toNat
          ∨ 2 ≤ d.rounds.length)
        ∧ (d.rest.length ≤ 1 ∨ ¬d.FirstApplies)) := by
  rcases Nat.lt_or_ge d.maxSize.toNat d.data.length with hlarge | hsmall
  swap
  · exact iff_of_true (d.withinCapacity_of_le heap hsmall) (Or.inr (Or.inl hsmall))
  rw [or_iff_right (Nat.not_le.mpr hlarge)]
  have hstart := d.start_le_cap_iff heap
  rw [or_iff_right (Nat.not_le.mpr hlarge)] at hstart
  rw [← hstart]
  unfold WithinCapacity
  cases hrest : d.rest with
  | nil => exact iff_of_true (fun p hp => absurd hp List.not_mem_nil) (Or.inl rfl)
  | cons first more =>
    rw [or_iff_right (List.cons_ne_nil _ _), dumpStates, List.forall_mem_cons]
    have hfirst : FitsBufs inflate pack first (d.start heap)
        ↔ (d.start heap).baseBufsz ≤ (d.start heap).baseCap :=
      ⟨FitsBufs.base, fun h => ⟨h, fun _ _ => d.declared_le (hrest ▸ List.mem_cons_self)⟩⟩
    refine and_congr hfirst ?_
    cases hstep : readDeltaData inflate pack first.dataOffset >>=
        stepWithCap d.maxSize.toNat heap.grown (d.start heap) with
    | error e =>
      have hno : ¬d.FirstApplies := by
        rw [d.firstApplies_iff heap hrest, hstep]
        exact fun ⟨_, _, h⟩ => nomatch h
      exact iff_of_true (fun p hp => absurd hp List.not_mem_nil) (Or.inr hno)
    | ok r =>
      obtain ⟨out, bufs⟩ := r
      have hyes : d.FirstApplies := (d.firstApplies_iff heap hrest).mpr ⟨out, bufs, hstep⟩
      rw [or_iff_left (not_not.mpr hyes)]
      obtain ⟨deltaBuf, -, hstep⟩ := bind_eq_ok_iff.mp hstep
      have hbufs := (stepWithCap_eq_ok_iff.mp hstep).2
      cases more with
      | nil => exact iff_of_true (fun p hp => absurd hp List.not_mem_nil) (Nat.le_refl 1)
      | cons second more =>
        -- the base of the second delta is in the buffer that was the accumulation buffer
        refine iff_of_false (fun h => ?_) (fun h => absurd h (by simp))
        have hsecond := (h (second, bufs) List.mem_cons_self).base
        rw [← hbufs] at hsecond
        have hsz : (d.start heap).baseBufsz = d.data.length := rfl
        rw [CapBufs.switch_baseBufsz, hsz, if_neg (Nat.lt_asymm hlarge)] at hsecond
        exact absurd hlarge (Nat.not_lt.mpr hsecond)

end InMemDump

end

/-! ## A base that inflates to more than its header says

Three objects: two bytes `AB` with a header that says one, a delta which makes `C` of one byte, and
a delta which copies the second byte of that. -/

/-- A pack whose chain has a base longer than one read of zlib gives out. -/
def longBasePack : Pack where
  file := [80, 65, 67, 75, 0, 0, 0, 2, 0, 0, 0, 3,
    49, 120, 1, 1, 2, 0, 253, 255, 65, 66, 0, 198, 0, 132,
    100, 14, 120, 1, 1, 4, 0, 251, 255, 1, 1, 1, 67, 0, 80, 0, 71,
    101, 17, 120, 1, 1, 5, 0, 250, 255, 1, 1, 145, 1, 1, 1, 196, 0, 150,
    40, 193, 41, 61, 14, 87, 201, 251, 182, 113, 218, 59, 214, 76, 213, 162, 79, 144, 57, 106]
  mapped := true

/-- The chain of the last of the three. -/
def longBaseDump : InMemDump inflateStored longBasePack where
  base := ⟨12, 1, 3, 1, 0⟩
  rest := [⟨26, 1, 6, 4, 28⟩, ⟨43, 1, 6, 5, 45⟩]
  data := [65, 66]
  maxSize := 1
  rounds := [2]
  inflated := rfl
  largest := rfl
  deltas := by decide
  rounds_ne_nil := List.cons_ne_nil _ _
  keepsRoom := by
    show 2 ≤ 32768
    decide
  outlen := rfl

/-- The second delta is applied to a base of two bytes in a buffer of one. -/
theorem longBaseDump_states (heap : Heap) :
    dumpStates inflateStored (stepWithCap 1 heap.grown) longBasePack longBaseDump.rest
        (longBaseDump.start heap)
      = [(⟨26, 1, 6, 4, 28⟩, longBaseDump.start heap),
        (⟨43, 1, 6, 5, 45⟩, (longBaseDump.start heap).switch 1 heap.grown [67])] := rfl

/-- The dump of this chain does not stay within its buffers. -/
theorem not_withinCapacity_longBaseDump :
    ¬longBaseDump.WithinCapacity ⟨fun _ => 0, fun _ => 0, fun _ => 0⟩ := by
  intro h
  unfold InMemDump.WithinCapacity at h
  have hmax : longBaseDump.maxSize.toNat = 1 := rfl
  rw [hmax, longBaseDump_states] at h
  have hle : 2 ≤ 1 := (h _ (List.mem_cons_of_mem _ List.mem_cons_self)).base
  exact absurd hle (by decide)

end Got

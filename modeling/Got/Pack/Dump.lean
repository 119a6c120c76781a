import Got.DeltaDecode
import Got.Pack.DeltaChain

/-!
# Dumping delta chains

Once a chain is resolved, the object is restored by inflating the base and
applying the deltas to it one after the other. Two buffers take turns as the
base and as the place where the result goes, in memory if no size the chain
mentions is too large, and in two temporary files otherwise.

What a delta may copy from is in either case more than the result of the
delta before it. In memory the size recorded for the base is that of the
buffer, once the buffers have switched roles: what lies behind the actual
base is left over from earlier steps, or never was written. The temporary
files are rewound but not truncated, so an earlier and longer content shows
behind a shorter one. And in neither case is the base size that a delta
declares compared with anything.

So the result is the one the deltas describe for the chains whose sizes
agree, and the code does not check that they do: `AcceptedInMem` and
`AcceptedOnFiles` are what it does check. The two are compared with
`SizesAgree` in `dumpDeltaChain_correct_iff`.

What zlib makes of compressed data is a parameter. The cache of inflated
deltas holds what inflating them again would give, and is left out.
-/

namespace Got

open CopyProgram

/-- Deltas below this size are processed in memory. -/
def GOT_DELTA_RESULT_SIZE_CACHED_MAX : ℕ := 8 * 1024 * 1024

variable (inflate : Bytes → Except GotErr Bytes)

/-- Inflate the delta stream at a position of the pack file. -/
def readDeltaData (pack : Pack) (deltaDataOffset : ℕ) : Except GotErr Bytes :=
  if pack.mapped ∧ pack.filesize ≤ deltaDataOffset then .error .packOffset
  else inflate (pack.file.drop deltaDataOffset)

/-- The sizes an element of a chain mentions. The base object mentions no
result size, which then is the one before. -/
def deltaSizes (pack : Pack) (delta : Delta) (resultSize : UInt64) :
    Except GotErr (UInt64 × UInt64) :=
  if isPlainType delta.type then .ok (delta.size, resultSize)
  else do
    let deltaBuf ← readDeltaData inflate pack delta.dataOffset
    gotDeltaGetSizes deltaBuf

/-- The loop of `got_pack_get_delta_chain_max_size`. -/
def chainMaxSizeFrom (pack : Pack) : DeltaChain → UInt64 → UInt64 → Except GotErr UInt64
  | [], _, maxSize => .ok maxSize
  | delta :: rest, resultSize, maxSize => do
    let (baseSize, resultSize) ← deltaSizes inflate pack delta resultSize
    let maxSize := if baseSize > maxSize then baseSize else maxSize
    let maxSize := if resultSize > maxSize then resultSize else maxSize
    chainMaxSizeFrom pack rest resultSize maxSize

/-- The largest size any element of a chain mentions. -/
def gotPackGetDeltaChainMaxSize (pack : Pack) (deltas : DeltaChain) : Except GotErr UInt64 :=
  chainMaxSizeFrom inflate pack deltas 0 0

/-- Inflate the base object, the first element of a chain. -/
def inflateBase (pack : Pack) (delta : Delta) : Except GotErr Bytes :=
  if ¬isPlainType delta.type then .error .badDeltaChain
  else if pack.filesize ≤ delta.offset + delta.tslen then .error .packOffset
  else inflate (pack.file.drop (delta.offset + delta.tslen))

/-- The loop over the deltas of a chain: `step` applies one to the current
base and makes the result the new base. After the last delta the code leaves
out the second part, and nothing is read from the new base. -/
def dumpLoop {S : Type} (step : S → Bytes → Except GotErr (Bytes × S)) (pack : Pack) :
    DeltaChain → S → Bytes → Except GotErr Bytes
  | [], _, out => .ok out
  | delta :: rest, s, _ => do
    let deltaBuf ← readDeltaData inflate pack delta.dataOffset
    let (out, s) ← step s deltaBuf
    dumpLoop step pack rest s out

/-! ## In memory -/

/-- **What the memory holds that is handed out**: the two buffers as they are
allocated, and the part by which the buffer of the base grows. -/
structure Heap where
  accum : Block
  base : Block
  grown : Block

/-- The two buffers. -/
structure Bufs where
  baseBuf : Block
  /-- How many bytes of the base a delta may copy from. -/
  baseBufsz : ℕ
  accumBuf : Block

/-- A block of `n` bytes, grown. -/
def Block.realloc (b : Block) (n : ℕ) (grown : Block) : Block :=
  fun i => if i < n then b i else grown i

/-- The buffers after a delta was applied. The base buffer switches roles with
the accumulation buffer, and the code ensures it can hold the largest result
in the chain. -/
def Bufs.switch (maxSize : ℕ) (grown : Block) (bufs : Bufs) (out : Bytes) : Bufs :=
  if bufs.baseBufsz < maxSize then
    { baseBuf := bufs.accumBuf.write out
      baseBufsz := maxSize
      accumBuf := bufs.baseBuf.realloc bufs.baseBufsz grown }
  else
    { baseBuf := bufs.accumBuf.write out
      baseBufsz := bufs.baseBufsz
      accumBuf := bufs.baseBuf }

/-- Apply one delta in memory. -/
def stepInMem (maxSize : ℕ) (grown : Block) (bufs : Bufs) (deltaBuf : Bytes) :
    Except GotErr (Bytes × Bufs) := do
  let out ← gotDeltaApplyInMem bufs.baseBuf bufs.baseBufsz deltaBuf maxSize
  return (out, bufs.switch maxSize grown out)

/-- The part both functions share: dump a chain in memory. -/
def dumpInMem (heap : Heap) (pack : Pack) (maxSize : ℕ) (base : Delta) (rest : DeltaChain) :
    Except GotErr Bytes := do
  let data ← inflateBase inflate pack base
  dumpLoop inflate (stepInMem maxSize heap.grown) pack rest
    ⟨heap.base.write data, data.length, heap.accum⟩ []

/-- **Dump a delta chain to memory.** -/
def gotPackDumpDeltaChainToMem (heap : Heap) (pack : Pack) : DeltaChain → Except GotErr Bytes
  | [] => .error .badDeltaChain
  | base :: rest => do
    let maxSize ← gotPackGetDeltaChainMaxSize inflate pack (base :: rest)
    dumpInMem inflate heap pack maxSize.toNat base rest

/-! ## On files -/

/-- The two temporary files. -/
structure TmpFiles where
  baseFile : Bytes
  accumFile : Bytes

/-- A file after `data` was written from its start. What it held behind that
is still there. -/
def overwrite (file data : Bytes) : Bytes := data ++ file.drop data.length

/-- Apply one delta on files. The files switch roles and are rewound. -/
def stepOnFiles (files : TmpFiles) (deltaBuf : Bytes) : Except GotErr (Bytes × TmpFiles) := do
  let out ← gotDeltaApply files.baseFile deltaBuf
  return (out, ⟨overwrite files.accumFile out, files.baseFile⟩)

/-- Dump a chain by way of the temporary files. -/
def dumpOnFiles (files : TmpFiles) (pack : Pack) (base : Delta) (rest : DeltaChain) :
    Except GotErr Bytes := do
  let data ← inflateBase inflate pack base
  dumpLoop inflate stepOnFiles pack rest ⟨overwrite files.baseFile data, files.accumFile⟩ []

/-- **Dump a delta chain to a file.** The temporary files are handed in, with
what they hold from earlier chains. Small enough files are processed entirely
in memory for speed. -/
def gotPackDumpDeltaChainToFile (heap : Heap) (files : TmpFiles) (pack : Pack) :
    DeltaChain → Except GotErr Bytes
  | [] => .error .badDeltaChain
  | base :: rest => do
    let maxSize ← gotPackGetDeltaChainMaxSize inflate pack (base :: rest)
    if maxSize.toNat < GOT_DELTA_RESULT_SIZE_CACHED_MAX then
      dumpInMem inflate heap pack maxSize.toNat base rest
    else dumpOnFiles inflate files pack base rest

/-! ## What the chain describes -/

/-- The patch of a delta. -/
def deltaPatch (pack : Pack) (delta : Delta) : Option (Patch UInt8) :=
  (readDeltaData inflate pack delta.dataOffset).toOption.bind decodeDelta

/-- The patches of the deltas of a chain. -/
def chainPatches (pack : Pack) (deltas : DeltaChain) : Option (List (Patch UInt8)) :=
  deltas.mapM (deltaPatch inflate pack)

/-- **The result the chain describes** is the left fold of its patches over
its base. -/
def IsFold (pack : Pack) (deltas : DeltaChain) (out : Bytes) : Prop :=
  ∃ base rest data patches, deltas = base :: rest ∧ inflateBase inflate pack base = .ok data
    ∧ chainPatches inflate pack rest = some patches ∧ applyAll data patches = some out

/-- **The sizes of a chain agree**: every delta declares the size its base
has and the size its result has, and copies from within its base. A chain
without deltas has a base that is empty. -/
def SizesAgree (pack : Pack) (deltas : DeltaChain) : Prop :=
  ∃ base rest data patches, deltas = base :: rest ∧ inflateBase inflate pack base = .ok data
    ∧ chainPatches inflate pack rest = some patches ∧ Chained data.length patches
    ∧ (rest = [] → data = [])

/-! ## What the code checks -/

/-- The program of a delta, if the code can read it and if it produces as much
as the code reads that it should. -/
def deltaProgram (pack : Pack) (delta : Delta) : Option (List (Instr UInt8)) :=
  ((readDeltaData inflate pack delta.dataOffset).toOption.bind readDelta).bind
    (fun r => if r.1 = size r.2 then some r.2 else none)

/-- The programs of the deltas of a chain. -/
def chainPrograms (pack : Pack) (deltas : DeltaChain) : Option (List (List (Instr UInt8))) :=
  deltas.mapM (deltaProgram inflate pack)

/-- **What a step checks of the program it runs**: that it copies from within
a limit, and that its result fits. How the limit changes is a matter of the
size of the result, in a state `L` of its own. -/
structure Checks (L : Type) where
  limit : L → ℕ
  fits : ℕ → Prop
  next : L → ℕ → L

/-- A list of programs passes the checks one by one. -/
def Checks.Accept {L : Type} (c : Checks L) : L → List (List (Instr UInt8)) → Prop
  | _, [] => True
  | l, is :: iss => InBounds (c.limit l) is ∧ c.fits (size is) ∧ c.Accept (c.next l (size is)) iss

/-- In memory, the first delta may copy from as many bytes as the base has,
and the following from as many as the buffer has, or the base if that is
longer; and no result may be too large for the buffer. -/
def checksInMem (maxSize : ℕ) : Checks ℕ where
  limit := id
  fits := (· ≤ maxSize)
  next := fun l _ => if l < maxSize then maxSize else l

/-- On files, a delta may copy from within the base file, as long as it is by
then. The state is the length of the base file and that of the other. -/
def checksOnFiles : Checks (ℕ × ℕ) where
  limit := Prod.fst
  fits := fun _ => True
  next := fun l n => (max n l.2, l.1)

/-- The bases and deltas that are dumped in memory. -/
def AcceptedInMem (pack : Pack) (maxSize : ℕ) (base : Delta) (rest : DeltaChain) : Prop :=
  ∃ data iss, inflateBase inflate pack base = .ok data
    ∧ chainPrograms inflate pack rest = some iss ∧ (checksInMem maxSize).Accept data.length iss

/-- The bases and deltas that are dumped by way of files. -/
def AcceptedOnFiles (files : TmpFiles) (pack : Pack) (base : Delta) (rest : DeltaChain) : Prop :=
  ∃ data iss, inflateBase inflate pack base = .ok data
    ∧ chainPrograms inflate pack rest = some iss
    ∧ checksOnFiles.Accept ((overwrite files.baseFile data).length, files.accumFile.length) iss

/-- **The chains `got_pack_dump_delta_chain_to_mem` accepts.** -/
def AcceptedToMem (pack : Pack) (deltas : DeltaChain) : Prop :=
  ∃ base rest maxSize, deltas = base :: rest
    ∧ gotPackGetDeltaChainMaxSize inflate pack deltas = .ok maxSize
    ∧ AcceptedInMem inflate pack maxSize.toNat base rest

/-- **The chains `got_pack_dump_delta_chain_to_file` accepts.** -/
def AcceptedToFile (files : TmpFiles) (pack : Pack) (deltas : DeltaChain) : Prop :=
  ∃ base rest maxSize, deltas = base :: rest
    ∧ gotPackGetDeltaChainMaxSize inflate pack deltas = .ok maxSize
    ∧ if maxSize.toNat < GOT_DELTA_RESULT_SIZE_CACHED_MAX
      then AcceptedInMem inflate pack maxSize.toNat base rest
      else AcceptedOnFiles inflate files pack base rest

/-! ## One step -/

/-- **A step does what its checks describe**: it succeeds on the programs that
pass them, runs the program on the memory in which it sees the base, and
leaves the result in its place. -/
structure Checks.Describe {L S : Type} (c : Checks L)
    (step : S → Bytes → Except GotErr (Bytes × S)) (mem : S → Block) (limits : S → L) : Prop where
  ok_iff : ∀ s d, (∃ r, step s d = .ok r) ↔ ∃ is, readDelta d = some (size is, is)
    ∧ InBounds (c.limit (limits s)) is ∧ c.fits (size is)
  result : ∀ {s d out s' n is}, step s d = .ok (out, s') → readDelta d = some (n, is) →
    out = run (mem s) is
  holds : ∀ {s d out s'}, step s d = .ok (out, s') → Holds (mem s') out
  limits_next : ∀ {s d out s'}, step s d = .ok (out, s') → limits s' = c.next (limits s) out.length

theorem switch_baseBuf (maxSize : ℕ) (grown : Block) (bufs : Bufs) (out : Bytes) :
    (bufs.switch maxSize grown out).baseBuf = bufs.accumBuf.write out := by
  unfold Bufs.switch
  split <;> rfl

theorem switch_baseBufsz (maxSize : ℕ) (grown : Block) (bufs : Bufs) (out : Bytes) :
    (bufs.switch maxSize grown out).baseBufsz
      = if bufs.baseBufsz < maxSize then maxSize else bufs.baseBufsz := by
  unfold Bufs.switch
  split <;> rfl

/-- One application in memory succeeds when the delta does, and turns the buffers round. -/
theorem stepInMem_eq_ok_iff {maxSize : ℕ} {grown : Block} {bufs bufs' : Bufs} {d out : Bytes} :
    stepInMem maxSize grown bufs d = .ok (out, bufs')
      ↔ gotDeltaApplyInMem bufs.baseBuf bufs.baseBufsz d maxSize = .ok out
        ∧ bufs.switch maxSize grown out = bufs' := by
  unfold stepInMem
  rw [bind_eq_ok_iff]
  constructor
  · rintro ⟨out', ha, h⟩
    obtain ⟨rfl, rfl⟩ := Prod.mk.inj (Except.ok.inj h)
    exact ⟨ha, rfl⟩
  · rintro ⟨ha, rfl⟩
    exact ⟨out, ha, rfl⟩

/-- **One step in memory is described by its checks.** -/
theorem describe_stepInMem (maxSize : ℕ) (grown : Block) :
    (checksInMem maxSize).Describe (stepInMem maxSize grown) Bufs.baseBuf Bufs.baseBufsz where
  ok_iff := by
    intro bufs d
    constructor
    · rintro ⟨⟨out, bufs'⟩, h⟩
      obtain ⟨is, hr, hb, hs, -⟩ :=
        (gotDeltaApplyInMem_eq_ok_iff _ _ _ _ _).mp (stepInMem_eq_ok_iff.mp h).1
      exact ⟨is, hr, hb, hs⟩
    · rintro ⟨is, hr, hb, hs⟩
      exact ⟨(run bufs.baseBuf is, _), stepInMem_eq_ok_iff.mpr
        ⟨(gotDeltaApplyInMem_eq_ok_iff _ _ _ _ _).mpr ⟨is, hr, hb, hs, rfl⟩, rfl⟩⟩
  result := by
    intro bufs d out bufs' n is h hr
    obtain ⟨is', hr', -, -, rfl⟩ :=
      (gotDeltaApplyInMem_eq_ok_iff _ _ _ _ _).mp (stepInMem_eq_ok_iff.mp h).1
    rw [(Prod.mk.inj (Option.some.inj (hr'.symm.trans hr))).2]
  holds := by
    intro bufs d out bufs' h
    rw [← (stepInMem_eq_ok_iff.mp h).2, switch_baseBuf]
    exact holds_write _ _
  limits_next := by
    intro bufs d out bufs' h
    rw [← (stepInMem_eq_ok_iff.mp h).2, switch_baseBufsz]
    rfl

/-- A file as a block of memory. -/
def fileBlock (file : Bytes) : Block := fun i => file.getD i 0

theorem holds_fileBlock (file : Bytes) : Holds (fileBlock file) file := by
  intro i x hi
  rw [fileBlock, List.getD_eq_getElem?_getD, hi, Option.getD_some]

theorem holds_overwrite (file data : Bytes) : Holds (fileBlock (overwrite file data)) data := by
  intro i x hi
  have hlt : i < data.length := (List.getElem?_eq_some_iff.mp hi).1
  exact holds_fileBlock _ i x (by rw [overwrite, List.getElem?_append_left hlt, hi])

theorem length_overwrite (file data : Bytes) :
    (overwrite file data).length = max data.length file.length := by
  rw [overwrite, List.length_append, List.length_drop]
  omega

/-- One application on files succeeds when the delta does, and turns the files round. -/
theorem stepOnFiles_eq_ok_iff {files files' : TmpFiles} {d out : Bytes} :
    stepOnFiles files d = .ok (out, files') ↔ gotDeltaApply files.baseFile d = .ok out
      ∧ ⟨overwrite files.accumFile out, files.baseFile⟩ = files' := by
  unfold stepOnFiles
  rw [bind_eq_ok_iff]
  constructor
  · rintro ⟨out', ha, h⟩
    obtain ⟨rfl, rfl⟩ := Prod.mk.inj (Except.ok.inj h)
    exact ⟨ha, rfl⟩
  · rintro ⟨ha, rfl⟩
    exact ⟨out, ha, rfl⟩

/-- **One step on files is described by its checks.** -/
theorem describe_stepOnFiles :
    checksOnFiles.Describe stepOnFiles (fun files => fileBlock files.baseFile)
      (fun files => (files.baseFile.length, files.accumFile.length)) where
  ok_iff := by
    intro files d
    constructor
    · rintro ⟨⟨out, files'⟩, h⟩
      obtain ⟨is, hr, hb, -⟩ := (gotDeltaApply_eq_ok_iff _ _ _).mp (stepOnFiles_eq_ok_iff.mp h).1
      exact ⟨is, hr, hb, trivial⟩
    · rintro ⟨is, hr, hb, -⟩
      exact ⟨(runList files.baseFile is, _), stepOnFiles_eq_ok_iff.mpr
        ⟨(gotDeltaApply_eq_ok_iff _ _ _).mpr ⟨is, hr, hb, rfl⟩, rfl⟩⟩
  result := by
    intro files d out files' n is h hr
    obtain ⟨is', hr', hb, rfl⟩ := (gotDeltaApply_eq_ok_iff _ _ _).mp (stepOnFiles_eq_ok_iff.mp h).1
    rw [← (Prod.mk.inj (Option.some.inj (hr'.symm.trans hr))).2,
      run_eq_runList (holds_fileBlock _) hb]
  holds := by
    intro files d out files' h
    rw [← (stepOnFiles_eq_ok_iff.mp h).2]
    exact holds_overwrite _ _
  limits_next := by
    intro files d out files' h
    rw [← (stepOnFiles_eq_ok_iff.mp h).2, length_overwrite]
    rfl

/-! ## The whole chain -/

section

variable {inflate}
variable {L S : Type} {c : Checks L} {step : S → Bytes → Except GotErr (Bytes × S)}
variable {mem : S → Block} {limits : S → L} {pack : Pack}

/-- The program of a delta is there when its data can be read and decodes to it. -/
theorem deltaProgram_eq_some_iff {delta : Delta} {is : List (Instr UInt8)} :
    deltaProgram inflate pack delta = some is
      ↔ ∃ d, readDeltaData inflate pack delta.dataOffset = .ok d
        ∧ readDelta d = some (size is, is) := by
  unfold deltaProgram
  cases readDeltaData inflate pack delta.dataOffset with
  | error e => exact ⟨fun h => (nomatch h), fun ⟨_, h, _⟩ => (nomatch h)⟩
  | ok d =>
    show (readDelta d).bind _ = _ ↔ _
    rw [Option.bind_eq_some_iff]
    constructor
    · rintro ⟨⟨n, is'⟩, hr, h⟩
      dsimp only at h
      split at h
      · next hn =>
        obtain rfl := Option.some.inj h
        exact ⟨d, rfl, by rw [hr, hn]⟩
      · exact nomatch h
    · rintro ⟨d', hd, hr⟩
      obtain rfl := Except.ok.inj hd
      exact ⟨_, hr, if_pos rfl⟩

/-- A program the code reads is that of a patch. -/
theorem deltaPatch_of_deltaProgram {delta : Delta} {is : List (Instr UInt8)}
    (h : deltaProgram inflate pack delta = some is) :
    ∃ p, deltaPatch inflate pack delta = some p ∧ p.instrs = is := by
  obtain ⟨d, hd, hr⟩ := deltaProgram_eq_some_iff.mp h
  obtain ⟨p, hp, hi⟩ := decodeDelta_of_readDelta hr
  exact ⟨p, by rw [deltaPatch, hd]; exact hp, hi⟩

/-- Mapping a list succeeds when its head and its rest do. -/
theorem mapM_cons_eq_some_iff {α β : Type} {f : α → Option β} {a : α} {as : List α}
    {bs : List β} :
    (a :: as).mapM f = some bs ↔ ∃ b bs', f a = some b ∧ as.mapM f = some bs' ∧ bs = b :: bs' := by
  rw [List.mapM_cons]
  cases f a with
  | none => exact ⟨fun h => (nomatch h), fun ⟨_, _, h, _⟩ => (nomatch h)⟩
  | some b =>
    cases as.mapM f with
    | none => exact ⟨fun h => (nomatch h), fun ⟨_, _, _, h, _⟩ => (nomatch h)⟩
    | some bs' =>
      constructor
      · intro h
        exact ⟨b, bs', rfl, rfl, (Option.some.inj h).symm⟩
      · rintro ⟨b', bs'', hb, hbs, rfl⟩
        cases hb
        cases hbs
        rfl

/-- A chain the code can read is a chain of patches. -/
theorem chainPatches_of_chainPrograms {deltas : DeltaChain} {iss : List (List (Instr UInt8))}
    (h : chainPrograms inflate pack deltas = some iss) :
    ∃ ps, chainPatches inflate pack deltas = some ps ∧ ps.map Patch.instrs = iss := by
  induction deltas generalizing iss with
  | nil => exact ⟨[], rfl, Option.some.inj h⟩
  | cons delta rest ih =>
    obtain ⟨is, iss', hi, his, rfl⟩ := mapM_cons_eq_some_iff.mp h
    obtain ⟨p, hp, rfl⟩ := deltaPatch_of_deltaProgram hi
    obtain ⟨ps, hps, rfl⟩ := ih his
    exact ⟨p :: ps, mapM_cons_eq_some_iff.mpr ⟨p, ps, hp, hps, rfl⟩, rfl⟩

/-- **The loop succeeds on the chains that pass the checks.** -/
theorem dumpLoop_ok_iff (hc : c.Describe step mem limits) (rest : DeltaChain) (s : S)
    (out : Bytes) :
    (∃ res, dumpLoop inflate step pack rest s out = .ok res)
      ↔ ∃ iss, chainPrograms inflate pack rest = some iss ∧ c.Accept (limits s) iss := by
  induction rest generalizing s out with
  | nil => exact ⟨fun _ => ⟨[], rfl, trivial⟩, fun _ => ⟨out, rfl⟩⟩
  | cons delta rest ih =>
    constructor
    · rintro ⟨res, h⟩
      obtain ⟨d, hd, h⟩ := bind_eq_ok_iff.mp h
      obtain ⟨⟨out', s'⟩, hs, h⟩ := bind_eq_ok_iff.mp h
      obtain ⟨is, hr, hb, hf⟩ := (hc.ok_iff s d).mp ⟨_, hs⟩
      obtain ⟨iss, hiss, ha⟩ := (ih s' out').mp ⟨res, h⟩
      refine ⟨is :: iss, mapM_cons_eq_some_iff.mpr
        ⟨is, iss, deltaProgram_eq_some_iff.mpr ⟨d, hd, hr⟩, hiss, rfl⟩, hb, hf, ?_⟩
      rw [hc.limits_next hs, hc.result hs hr, length_run] at ha
      exact ha
    · rintro ⟨iss, h, ha⟩
      obtain ⟨is, iss', hi, his, rfl⟩ := mapM_cons_eq_some_iff.mp h
      obtain ⟨d, hd, hr⟩ := deltaProgram_eq_some_iff.mp hi
      obtain ⟨hb, hf, ha⟩ := ha
      obtain ⟨⟨out', s'⟩, hs⟩ := (hc.ok_iff s d).mpr ⟨is, hr, hb, hf⟩
      have ha' : c.Accept (limits s') iss' := by
        rw [hc.limits_next hs, hc.result hs hr, length_run]
        exact ha
      obtain ⟨res, hres⟩ := (ih s' out').mpr ⟨iss', his, ha'⟩
      exact ⟨res, bind_eq_ok_iff.mpr ⟨d, hd, bind_eq_ok_iff.mpr ⟨_, hs, hres⟩⟩⟩

/-- **Where the programs are feasible, the loop runs one after the other.** What
the step sees as its base holds the intermediate result, and what lies behind
it is out of reach of the deltas that follow. -/
theorem dumpLoop_eq_runAll (hc : c.Describe step mem limits) {rest : DeltaChain} {s : S}
    {cur out res : Bytes} {iss : List (List (Instr UInt8))} (hcur : Holds (mem s) cur)
    (hout : rest = [] → cur = out) (hiss : chainPrograms inflate pack rest = some iss)
    (hf : Feasible cur.length iss) (h : dumpLoop inflate step pack rest s out = .ok res) :
    res = runAll cur iss := by
  induction rest generalizing s cur out iss with
  | nil =>
    obtain rfl : [] = iss := Option.some.inj hiss
    rw [hout rfl]
    exact (Except.ok.inj h).symm
  | cons delta rest ih =>
    obtain ⟨is, iss, hi, hiss', rfl⟩ := mapM_cons_eq_some_iff.mp hiss
    obtain ⟨d, hd, hr⟩ := deltaProgram_eq_some_iff.mp hi
    obtain ⟨d', hd', h⟩ := bind_eq_ok_iff.mp h
    obtain rfl : d = d' := Except.ok.inj (hd.symm.trans hd')
    obtain ⟨⟨out', s'⟩, hs, h⟩ := bind_eq_ok_iff.mp h
    have hres : out' = runList cur is := by
      rw [hc.result hs hr, run_eq_runList hcur hf.1]
    refine (ih (hc.holds hs) (fun _ => rfl) hiss' ?_ h).trans ?_
    · rw [hres, length_runList hf.1]
      exact hf.2
    · rw [hres]
      rfl

/-- **What is dumped from a base on**: the fold, for all that is accepted
exactly if the sizes agree for all that is accepted. -/
theorem dumpFrom_correct_iff (hc : c.Describe step mem limits) (start : Bytes → S)
    (hstart : ∀ data, Holds (mem (start data)) data) (base : Delta) (rest : DeltaChain) :
    (∀ out, (do let data ← inflateBase inflate pack base
                dumpLoop inflate step pack rest (start data) []) = .ok out →
      IsFold inflate pack (base :: rest) out)
      ↔ ((∃ data iss, inflateBase inflate pack base = .ok data
          ∧ chainPrograms inflate pack rest = some iss ∧ c.Accept (limits (start data)) iss) →
        SizesAgree inflate pack (base :: rest)) := by
  constructor
  · rintro h ⟨data, iss, hdata, hiss, ha⟩
    obtain ⟨res, hres⟩ := (dumpLoop_ok_iff hc rest (start data) []).mpr ⟨iss, hiss, ha⟩
    obtain ⟨base', rest', data', ps, heq, hdata', hps, hall⟩ :=
      h res (bind_eq_ok_iff.mpr ⟨data, hdata, hres⟩)
    obtain ⟨rfl, rfl⟩ := List.cons.inj heq
    obtain rfl : data = data' := Except.ok.inj (hdata.symm.trans hdata')
    refine ⟨base, rest, data, ps, rfl, hdata, hps,
      (applyAll_isSome_iff data ps).mp ⟨res, hall⟩, ?_⟩
    -- without deltas nothing was written, and the fold is the base
    rintro rfl
    obtain rfl : [] = ps := Option.some.inj hps
    obtain rfl : [] = res := Except.ok.inj hres
    exact Option.some.inj hall
  · intro h out hout
    obtain ⟨data, hdata, hres⟩ := bind_eq_ok_iff.mp hout
    obtain ⟨iss, hiss, ha⟩ := (dumpLoop_ok_iff hc rest (start data) []).mp ⟨out, hres⟩
    obtain ⟨base', rest', data', ps, heq, hdata', hps, hsizes, hnil⟩ :=
      h ⟨data, iss, hdata, hiss, ha⟩
    obtain ⟨rfl, rfl⟩ := List.cons.inj heq
    obtain rfl : data = data' := Except.ok.inj (hdata.symm.trans hdata')
    obtain ⟨ps', hps', rfl⟩ := chainPatches_of_chainPrograms hiss
    obtain rfl : ps = ps' := Option.some.inj (hps.symm.trans hps')
    refine ⟨base, rest, data, ps, rfl, hdata, hps, ?_⟩
    rw [dumpLoop_eq_runAll hc (hstart data) hnil hiss hsizes.feasible hres]
    exact applyAll_eq_runAll hsizes

/-- Once the buffers are there, the result is right exactly when what is accepted has matching
sizes. -/
theorem dumpInMem_correct_iff (heap : Heap) (maxSize : ℕ) (base : Delta) (rest : DeltaChain) :
    (∀ out, dumpInMem inflate heap pack maxSize base rest = .ok out →
      IsFold inflate pack (base :: rest) out)
      ↔ (AcceptedInMem inflate pack maxSize base rest →
        SizesAgree inflate pack (base :: rest)) :=
  dumpFrom_correct_iff (describe_stepInMem maxSize heap.grown) _
    (fun data => holds_write heap.base data) base rest

/-- The same for temporary files. -/
theorem dumpOnFiles_correct_iff (files : TmpFiles) (base : Delta) (rest : DeltaChain) :
    (∀ out, dumpOnFiles inflate files pack base rest = .ok out →
      IsFold inflate pack (base :: rest) out)
      ↔ (AcceptedOnFiles inflate files pack base rest →
        SizesAgree inflate pack (base :: rest)) :=
  dumpFrom_correct_iff describe_stepOnFiles _
    (fun data => holds_overwrite files.baseFile data) base rest

end

/-- In memory, the result is right exactly when what is accepted has matching sizes. -/
theorem dumpToMem_correct_iff (heap : Heap) (pack : Pack) (deltas : DeltaChain) :
    (∀ out, gotPackDumpDeltaChainToMem inflate heap pack deltas = .ok out →
      IsFold inflate pack deltas out)
      ↔ (AcceptedToMem inflate pack deltas → SizesAgree inflate pack deltas) := by
  constructor
  · rintro h ⟨base, rest, maxSize, rfl, hm, ha⟩
    exact (dumpInMem_correct_iff heap maxSize.toNat base rest).mp
      (fun out ho => h out (bind_eq_ok_iff.mpr ⟨maxSize, hm, ho⟩)) ha
  · intro h out ho
    match deltas with
    | [] => exact nomatch ho
    | base :: rest =>
      obtain ⟨maxSize, hm, ho⟩ := bind_eq_ok_iff.mp ho
      exact (dumpInMem_correct_iff heap maxSize.toNat base rest).mpr
        (fun ha => h ⟨base, rest, maxSize, rfl, hm, ha⟩) out ho

/-- On files, the result is right exactly when what is accepted has matching sizes. -/
theorem dumpToFile_correct_iff (heap : Heap) (files : TmpFiles) (pack : Pack)
    (deltas : DeltaChain) :
    (∀ out, gotPackDumpDeltaChainToFile inflate heap files pack deltas = .ok out →
      IsFold inflate pack deltas out)
      ↔ (AcceptedToFile inflate files pack deltas → SizesAgree inflate pack deltas) := by
  have hboth : ∀ (maxSize : UInt64) (base : Delta) (rest : DeltaChain),
      (∀ out, (if maxSize.toNat < GOT_DELTA_RESULT_SIZE_CACHED_MAX
          then dumpInMem inflate heap pack maxSize.toNat base rest
          else dumpOnFiles inflate files pack base rest) = .ok out →
        IsFold inflate pack (base :: rest) out)
        ↔ ((if maxSize.toNat < GOT_DELTA_RESULT_SIZE_CACHED_MAX
            then AcceptedInMem inflate pack maxSize.toNat base rest
            else AcceptedOnFiles inflate files pack base rest) →
          SizesAgree inflate pack (base :: rest)) := by
    intro maxSize base rest
    split
    · exact dumpInMem_correct_iff heap maxSize.toNat base rest
    · exact dumpOnFiles_correct_iff files base rest
  constructor
  · rintro h ⟨base, rest, maxSize, rfl, hm, ha⟩
    exact (hboth maxSize base rest).mp
      (fun out ho => h out (bind_eq_ok_iff.mpr ⟨maxSize, hm, ho⟩)) ha
  · intro h out ho
    match deltas with
    | [] => exact nomatch ho
    | base :: rest =>
      obtain ⟨maxSize, hm, ho⟩ := bind_eq_ok_iff.mp ho
      exact (hboth maxSize base rest).mpr
        (fun ha => h ⟨base, rest, maxSize, rfl, hm, ha⟩) out ho

/-- **The dump of a chain is what the chain describes** exactly if its sizes agree or it is not
accepted, in memory and on files. The result of one delta is the base of the next one, but what is
handed on as the size of that base is how large the buffer or the file is, not how long the result
was: a delta may copy from behind it. The sizes of bases that deltas declare are compared with
nothing. -/
theorem dumpDeltaChain_correct_iff (heap : Heap) (files : TmpFiles) (pack : Pack)
    (deltas : DeltaChain) :
    ((∀ out, gotPackDumpDeltaChainToMem inflate heap pack deltas = .ok out →
        IsFold inflate pack deltas out)
      ↔ (AcceptedToMem inflate pack deltas → SizesAgree inflate pack deltas))
    ∧ ((∀ out, gotPackDumpDeltaChainToFile inflate heap files pack deltas = .ok out →
        IsFold inflate pack deltas out)
      ↔ (AcceptedToFile inflate files pack deltas → SizesAgree inflate pack deltas)) :=
  ⟨dumpToMem_correct_iff inflate heap pack deltas,
    dumpToFile_correct_iff inflate heap files pack deltas⟩

/-! ## Chains that can be dumped -/

section

variable {inflate} {pack : Pack}

/-- In memory, feasible programs pass the checks. -/
theorem accept_checksInMem {maxSize n limit : ℕ} {iss : List (List (Instr UInt8))}
    (h : Feasible n iss) (hn : n ≤ limit) (hs : ∀ is ∈ iss, size is ≤ maxSize) :
    (checksInMem maxSize).Accept limit iss := by
  induction iss generalizing n limit with
  | nil => trivial
  | cons is iss ih =>
    have hsize := hs is List.mem_cons_self
    refine ⟨h.1.mono hn, hsize, ih h.2 ?_ (fun i hi => hs i (List.mem_cons_of_mem is hi))⟩
    show size is ≤ if limit < maxSize then maxSize else limit
    split <;> omega

/-- On files, feasible programs pass the checks. -/
theorem accept_checksOnFiles {n baseLen accumLen : ℕ} {iss : List (List (Instr UInt8))}
    (h : Feasible n iss) (hn : n ≤ baseLen) : checksOnFiles.Accept (baseLen, accumLen) iss := by
  induction iss generalizing n baseLen accumLen with
  | nil => trivial
  | cons is iss ih => exact ⟨h.1.mono hn, trivial, ih h.2 (Nat.le_max_left _ _)⟩

/-- The larger of two sizes, as the code finds it. -/
theorem toNat_larger (a b : UInt64) :
    (if a > b then a else b).toNat = max a.toNat b.toNat := by
  simp only [gt_iff_lt, UInt64.lt_iff_toNat_lt]
  split <;> omega

/-- The largest size is found, and it is as large as any. -/
theorem chainMaxSizeFrom_spec {deltas : DeltaChain} {iss : List (List (Instr UInt8))}
    (hd : ∀ d ∈ deltas, ¬isPlainType d.type) (h : chainPrograms inflate pack deltas = some iss)
    (resultSize maxSize : UInt64) :
    ∃ m, chainMaxSizeFrom inflate pack deltas resultSize maxSize = .ok m
      ∧ maxSize.toNat ≤ m.toNat ∧ ∀ is ∈ iss, size is ≤ m.toNat := by
  induction deltas generalizing iss resultSize maxSize with
  | nil =>
    obtain rfl : [] = iss := Option.some.inj h
    exact ⟨maxSize, rfl, Nat.le_refl _, fun is his => absurd his List.not_mem_nil⟩
  | cons delta rest ih =>
    obtain ⟨is, iss, hi, hiss, rfl⟩ := mapM_cons_eq_some_iff.mp h
    obtain ⟨d, hread, hr⟩ := deltaProgram_eq_some_iff.mp hi
    obtain ⟨⟨bs, rs⟩, hsizes, (hrs : rs.toNat = _)⟩ := gotDeltaGetSizes_of_readDelta hr
    have hstep : deltaSizes inflate pack delta resultSize = .ok (bs, rs) := by
      rw [deltaSizes, if_neg (hd delta List.mem_cons_self), hread, ok_bind, hsizes]
    rw [chainMaxSizeFrom, hstep, ok_bind]
    dsimp only
    obtain ⟨m, hm, hle, hall⟩ := ih (fun d hd' => hd d (List.mem_cons_of_mem delta hd')) hiss rs
      (if rs > (if bs > maxSize then bs else maxSize) then rs
        else if bs > maxSize then bs else maxSize)
    rw [toNat_larger, toNat_larger] at hle
    refine ⟨m, hm, by omega, fun i hi => ?_⟩
    rcases List.mem_cons.mp hi with rfl | hi
    · omega
    · exact hall i hi

/-- **A chain of feasible programs is dumped**, by either function, and the
result is what the programs make one after the other. -/
theorem dump_of_feasible {base : Delta} {rest : DeltaChain} {data : Bytes}
    {iss : List (List (Instr UInt8))} (hdata : inflateBase inflate pack base = .ok data)
    (hd : ∀ d ∈ rest, ¬isPlainType d.type) (hiss : chainPrograms inflate pack rest = some iss)
    (hf : Feasible data.length iss) (hne : rest ≠ []) (heap : Heap) (files : TmpFiles) :
    (∃ maxSize, gotPackGetDeltaChainMaxSize inflate pack (base :: rest) = .ok maxSize)
      ∧ gotPackDumpDeltaChainToMem inflate heap pack (base :: rest) = .ok (runAll data iss)
      ∧ gotPackDumpDeltaChainToFile inflate heap files pack (base :: rest)
        = .ok (runAll data iss) := by
  have hplain : isPlainType base.type := by
    by_contra hp
    rw [inflateBase, if_pos hp] at hdata
    exact nomatch hdata
  obtain ⟨m, hm, hle, hall⟩ := chainMaxSizeFrom_spec hd hiss 0
    (if base.size > 0 then base.size else 0)
  have hmax : gotPackGetDeltaChainMaxSize inflate pack (base :: rest) = .ok m := by
    rw [gotPackGetDeltaChainMaxSize, chainMaxSizeFrom, deltaSizes, if_pos hplain, ok_bind]
    dsimp only
    rw [← hm]
    congr 1
  have hmem : dumpInMem inflate heap pack m.toNat base rest = .ok (runAll data iss) := by
    rw [dumpInMem, hdata, ok_bind]
    obtain ⟨res, hres⟩ := (dumpLoop_ok_iff (describe_stepInMem m.toNat heap.grown) rest
      ⟨heap.base.write data, data.length, heap.accum⟩ []).mpr
      ⟨iss, hiss, accept_checksInMem hf (Nat.le_refl _) hall⟩
    rw [hres, dumpLoop_eq_runAll (describe_stepInMem m.toNat heap.grown)
      (holds_write heap.base data) (fun h => absurd h hne) hiss hf hres]
  have hfiles : dumpOnFiles inflate files pack base rest = .ok (runAll data iss) := by
    rw [dumpOnFiles, hdata, ok_bind]
    obtain ⟨res, hres⟩ := (dumpLoop_ok_iff describe_stepOnFiles rest
      ⟨overwrite files.baseFile data, files.accumFile⟩ []).mpr
      ⟨iss, hiss, accept_checksOnFiles hf (by rw [length_overwrite]; exact Nat.le_max_left _ _)⟩
    rw [hres, dumpLoop_eq_runAll describe_stepOnFiles
      (holds_overwrite files.baseFile data) (fun h => absurd h hne) hiss hf hres]
  refine ⟨⟨m, hmax⟩, ?_, ?_⟩
  · rw [gotPackDumpDeltaChainToMem, hmax, ok_bind, hmem]
  · rw [gotPackDumpDeltaChainToFile, hmax, ok_bind]
    split
    · exact hmem
    · exact hfiles

end

/-! ## A chain that reads a byte which was never written -/

/-- zlib on streams of one stored block. -/
def inflateStored : Bytes → Except GotErr Bytes
  | _ :: _ :: 1 :: lo :: hi :: _ :: _ :: data => .ok (data.take (lo.toNat + 256 * hi.toNat))
  | _ => .error .io

/-- Three objects: the two bytes `AB`, a delta that makes `C` of them, and a
delta that copies two bytes of that. -/
def staleBytePack : Pack where
  file := [80, 65, 67, 75, 0, 0, 0, 2, 0, 0, 0, 3,
    50, 120, 1, 1, 2, 0, 253, 255, 65, 66, 0, 198, 0, 132,
    100, 14, 120, 1, 1, 4, 0, 251, 255, 2, 1, 1, 67, 0, 84, 0, 72,
    100, 17, 120, 1, 1, 4, 0, 251, 255, 1, 2, 144, 2, 1, 48, 0, 150,
    194, 187, 226, 125, 193, 136, 158, 199, 145, 58, 245, 12, 90, 102, 191, 0, 212, 30, 252, 86]
  mapped := true

/-- The chain of the last of the three. -/
def staleByteChain : DeltaChain :=
  [⟨12, 1, 3, 2, 0⟩, ⟨26, 1, 6, 4, 28⟩, ⟨43, 1, 6, 4, 45⟩]

/-- **The second byte of the result was never written.** The last delta copies
two bytes of a base of one byte. -/
theorem staleByte_dumped (heap : Heap) (files : TmpFiles) :
    gotPackDumpDeltaChainToMem inflateStored heap staleBytePack staleByteChain
        = .ok [67, heap.accum 1]
      ∧ gotPackDumpDeltaChainToFile inflateStored heap files staleBytePack staleByteChain
        = .ok [67, heap.accum 1] :=
  ⟨rfl, rfl⟩

/-- The chain describes nothing: its last delta does not fit its base. -/
theorem staleByte_not_isFold (out : Bytes) :
    ¬IsFold inflateStored staleBytePack staleByteChain out := by
  rintro ⟨base, rest, data, ps, heq, hdata, hps, hall⟩
  obtain ⟨rfl, rfl⟩ := List.cons.inj heq
  obtain rfl : [65, 66] = data := Except.ok.inj hdata
  obtain rfl : [⟨2, 1, [.insert [67]]⟩, ⟨1, 2, [.copy 0 2]⟩] = ps := Option.some.inj hps
  exact absurd ((applyAll_isSome_iff _ _).mp ⟨out, hall⟩) (by decide)

/-- Neither function rejects it, here with memory and files that hold
nothing. -/
theorem staleByte_dump_not_correct :
    (¬∀ out, gotPackDumpDeltaChainToMem inflateStored ⟨fun _ => 0, fun _ => 0, fun _ => 0⟩
        staleBytePack staleByteChain = .ok out →
      IsFold inflateStored staleBytePack staleByteChain out)
    ∧ ¬∀ out, gotPackDumpDeltaChainToFile inflateStored ⟨fun _ => 0, fun _ => 0, fun _ => 0⟩
        ⟨[], []⟩ staleBytePack staleByteChain = .ok out →
      IsFold inflateStored staleBytePack staleByteChain out :=
  ⟨fun h => staleByte_not_isFold _ (h _ (staleByte_dumped _ ⟨[], []⟩).1),
    fun h => staleByte_not_isFold _ (h _ (staleByte_dumped _ ⟨[], []⟩).2)⟩

end Got

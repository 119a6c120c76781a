import Got.Blame.Open
import Got.Pack.Packidx

/-!
# The lines of a blob, block by block

A blob is read in blocks, of which the first one has the header of the object in front. Where lines
start is written into a table while blocks are copied: the offset behind the end of the k-th line is
the k-th entry, wherever a block ends (`dumps_iff`).

The table begins with 512 entries, and grows by what it needs and 512 more. The size is computed as
an `int`, which is what limits the number of lines: at 2147483151 lines there are not enough of the
numbers left.
-/

namespace Got

/-! ## Dumping -/

/-- **What a caller asks for**, besides the file. -/
structure DumpWants where
  nlines : Bool
  lineOffsets : Bool

/-- What is known of a blob while it is being read. -/
structure BlobDump where
  outfile : Bytes := []
  totalLen : ℕ := 0
  nlines : ℤ := 0
  lineOffsets : Option (List ℕ) := none
  nalloc : ℕ := 0

namespace BlobDump

/-- `ALLOC_CHUNKSZ`: how many more line offsets are made room for at a time. -/
def allocChunksz : ℕ := 512

/-- The value of a `size_t` that an `int` becomes. -/
def intToSize (i : ℤ) : ℕ := (i % 2 ^ 64).toNat

/-- `recallocarray(3)`, of a table of offsets. -/
def recallocarray (table : List ℕ) (n : ℕ) : Except GotErr (List ℕ) :=
  if 2 ^ 64 ≤ n * 8 then .error (.errno .nomem)
  else .ok (table.take n ++ List.replicate (n - table.length) 0)

/-- An entry of the table. -/
def setOffset (table : List ℕ) (i : ℤ) (off : ℕ) : Except GotErr (List ℕ) :=
  if i < 0 ∨ table.length ≤ i.toNat then .error .outOfMap else .ok (table.set i.toNat off)

/-- One more line, which begins at an offset. -/
def addLine (off : ℕ) (dump : BlobDump) : Except GotErr BlobDump := do
  let nlines := toInt32 (dump.nlines + 1)
  match dump.lineOffsets with
  | none => return { dump with nlines }
  | some table =>
    if dump.nalloc < intToSize nlines then
      let n := intToSize (toInt32 (nlines + allocChunksz))
      let table ← setOffset (← recallocarray table n) (nlines - 1) off
      return { dump with nlines, lineOffsets := some table, nalloc := n }
    else
      let table ← setOffset table (nlines - 1) off
      return { dump with nlines, lineOffsets := some table }

/-- The end of the first line, from some place of a block on. -/
def skipLine : Bytes → ℕ → Bytes × ℕ
  | [], i => ([], i)
  | c :: buf, i => if c = 0x0a then (c :: buf, i) else skipLine buf (i + 1)

/-- The ends of lines, from some place of a block on. -/
def scanLines (hdrlen : ℕ) : Bytes → ℕ → BlobDump → Except GotErr BlobDump
  | [], _, dump => .ok dump
  | c :: buf, i, dump =>
    if c = 0x0a then do
      let dump ← addLine (dump.totalLen + i - hdrlen + 1) dump
      scanLines hdrlen buf (i + 1) dump
    else scanLines hdrlen buf (i + 1) dump

/-- The lines of a block. There is one line as soon as there are any data. -/
def scanBlock (wants : DumpWants) (hdrlen : ℕ) (buf : Bytes) (dump : BlobDump) :
    Except GotErr BlobDump :=
  if ¬wants.nlines then .ok dump
  else if wants.lineOffsets ∧ dump.lineOffsets = none then
    let from_ := skipLine (buf.drop hdrlen) hdrlen
    scanLines hdrlen from_.1 from_.2 { dump with
      nlines := 1
      nalloc := allocChunksz
      lineOffsets := some (List.replicate allocChunksz 0) }
  else scanLines hdrlen (buf.drop hdrlen) hdrlen dump

/-- The loop over the blocks which are read, the last of which is empty. The header is skipped the
first time around. -/
def dumpBlocks (wants : DumpWants) : ℕ → List Bytes → BlobDump → Except GotErr BlobDump
  | _, [], dump => .ok dump
  | hdrlen, buf :: blocks, dump =>
    if buf = [] then .ok dump
    else do
      let dump ← scanBlock wants hdrlen buf dump
      if buf.length < hdrlen then throw .outOfMap
      dumpBlocks wants 0 blocks { dump with
        outfile := dump.outfile ++ buf.drop hdrlen
        totalLen := dump.totalLen + (buf.length - hdrlen) }

/-- **`got_object_blob_dump_to_file`**, of a blob which is read in some blocks. -/
def dumpToFile (wants : DumpWants) (hdrlen : ℕ) (blocks : List Bytes) : Except GotErr BlobDump :=
  dumpBlocks wants hdrlen blocks {}

/-! ## What it should do -/

/-- **The blocks of a blob.** The header is in the first one. -/
structure IsRead (header content : Bytes) (blocks : List Bytes) : Prop where
  ne_nil : ∀ buf ∈ blocks, buf ≠ []
  split : ∃ first rest, blocks = (header ++ first) :: rest ∧ content = first ++ rest.flatten

/-- An entry of the table of lines. -/
def offsetAt (dump : BlobDump) (k : ℕ) : Option ℕ := dump.lineOffsets.bind fun table => table[k]?

/-- **A blob as it should be dumped**: the file, and a table of its lines. The first line begins at
0, and each of the others behind the end of the line before it. -/
structure Dumps (content : Bytes) (dump : BlobDump) : Prop where
  outfile : dump.outfile = content
  filesize : dump.totalLen = content.length
  nlines : dump.nlines = 1 + content.count 0x0a
  first : dump.offsetAt 0 = some 0
  others : ∀ before after, content = before ++ 0x0a :: after →
    dump.offsetAt (before.count 0x0a + 1) = some (before.length + 1)

/-! ## One line -/

variable {dump dump' : BlobDump} {offsets : List ℕ} {header content first : Bytes}
  {blocks : List Bytes} {hdrlen : ℕ}

/-- The number of lines for which a table would be too large. -/
def maxLines : ℕ := 2147483151

/-- **A table of some lines**, with room for more. -/
structure Indexed (dump : BlobDump) (offsets : List ℕ) : Prop where
  nlines_eq : dump.nlines = offsets.length
  nalloc_eq : dump.nalloc = 513 * (offsets.length / 513) + 512
  table_eq : dump.lineOffsets
    = some (offsets ++ List.replicate (dump.nalloc - offsets.length) 0)

theorem intToSize_natCast {n : ℕ} (h : n < 2 ^ 64) : intToSize n = n := by
  rw [intToSize]
  omega

/-- Writing at the end of what is filled extends it by one and uses up one spare place. -/
theorem setOffset_eq (offsets : List ℕ) (n off : ℕ) :
    setOffset (offsets ++ List.replicate (n + 1) 0) offsets.length off
      = .ok ((offsets ++ [off]) ++ List.replicate n 0) := by
  have hin : ¬((offsets.length : ℤ) < 0
      ∨ (offsets ++ List.replicate (n + 1) 0).length ≤ (offsets.length : ℤ).toNat) := by
    rw [Int.toNat_natCast, List.length_append, List.length_replicate]
    omega
  rw [setOffset, if_neg hin, Int.toNat_natCast, List.set_append_right _ _ (Nat.le_refl _),
    Nat.sub_self, List.replicate_succ, List.set_cons_zero, List.append_assoc, List.singleton_append]

/-- The number of a line, as an `int` and as a `size_t`. -/
theorem Indexed.number (h : Indexed dump offsets) (hmax : offsets.length + 1 ≤ maxLines) :
    toInt32 (dump.nlines + 1) = (offsets.length + 1 : ℕ)
      ∧ intToSize (toInt32 (dump.nlines + 1)) = offsets.length + 1 := by
  have hn : toInt32 (dump.nlines + 1) = (offsets.length + 1 : ℕ) := by
    rw [h.nlines_eq, maxLines] at *
    rw [toInt32_of_lt (by omega) (by omega)]
    rfl
  refine ⟨hn, ?_⟩
  rw [hn, intToSize_natCast]
  rw [maxLines] at hmax
  omega

/-- A table that is full is made larger. -/
theorem recallocarray_eq (offsets : List ℕ) (h : offsets.length < maxLines) :
    recallocarray offsets (offsets.length + 513)
      = .ok (offsets ++ List.replicate (512 + 1) 0) := by
  rw [maxLines] at h
  rw [recallocarray, if_neg (by omega), List.take_of_length_le (Nat.le_add_right _ _),
    Nat.add_sub_cancel_left]

/-- **A line is put behind the others** as long as the table is not too large. -/
theorem Indexed.addLine (h : Indexed dump offsets) (hmax : offsets.length + 1 < maxLines)
    (off : ℕ) : ∃ dump', addLine off dump = .ok dump' ∧ Indexed dump' (offsets ++ [off])
      ∧ dump'.outfile = dump.outfile ∧ dump'.totalLen = dump.totalLen := by
  obtain ⟨hn, hsize⟩ := h.number (Nat.le_of_lt hmax)
  have halloc := h.nalloc_eq
  have hlen : (offsets ++ [off]).length = offsets.length + 1 := List.length_append
  have hpred : ((offsets.length + 1 : ℕ) : ℤ) - 1 = offsets.length := by omega
  rw [BlobDump.addLine, h.table_eq]
  dsimp only
  rw [hsize, hn, hpred]
  by_cases hgrow : dump.nalloc < offsets.length + 1
  · have hfull : dump.nalloc = offsets.length := by omega
    have hroom : intToSize (toInt32 ((offsets.length + 1 : ℕ) + allocChunksz))
        = offsets.length + 513 := by
      rw [maxLines] at hmax
      rw [allocChunksz, toInt32_of_lt (by omega) (by omega),
        show ((offsets.length + 1 : ℕ) : ℤ) + (512 : ℕ) = (offsets.length + 513 : ℕ) by omega,
        intToSize_natCast (by omega)]
    rw [if_pos hgrow, hroom, hfull, Nat.sub_self, List.replicate_zero, List.append_nil,
      recallocarray_eq offsets (by omega), ok_bind, setOffset_eq, ok_bind]
    refine ⟨_, rfl, ⟨?_, ?_, ?_⟩, rfl, rfl⟩
    · rw [hlen]
    · rw [hlen]
      show offsets.length + 513 = _
      omega
    · rw [hlen, show offsets.length + 513 - (offsets.length + 1) = 512 by omega]
  · obtain ⟨n, hroom⟩ : ∃ n, dump.nalloc - offsets.length = n + 1 :=
      ⟨dump.nalloc - offsets.length - 1, by omega⟩
    rw [if_neg hgrow, hroom, setOffset_eq, ok_bind]
    refine ⟨_, rfl, ⟨?_, ?_, ?_⟩, rfl, rfl⟩
    · rw [hlen]
    · rw [hlen]
      show dump.nalloc = _
      omega
    · rw [hlen, show dump.nalloc - (offsets.length + 1) = n by omega]

/-- **The table is too large** for one more line. -/
theorem Indexed.addLine_error (h : Indexed dump offsets) (hmax : offsets.length + 1 = maxLines)
    (off : ℕ) : BlobDump.addLine off dump = .error (.errno .nomem) := by
  obtain ⟨hn, hsize⟩ := h.number (Nat.le_of_eq hmax)
  have halloc := h.nalloc_eq
  have hgrow : dump.nalloc < offsets.length + 1 := by
    rw [maxLines] at hmax
    omega
  have hroom : intToSize (toInt32 ((offsets.length + 1 : ℕ) + allocChunksz))
      = 2 ^ 64 - 2147483633 := by
    rw [hmax]
    decide +kernel
  have hnomem : recallocarray (offsets ++ List.replicate (dump.nalloc - offsets.length) 0)
      (2 ^ 64 - 2147483633) = .error (.errno .nomem) := if_pos (by decide)
  rw [BlobDump.addLine, h.table_eq]
  dsimp only
  rw [hsize, hn, if_pos hgrow, hroom, hnomem]
  rfl

/-! ## One block -/

/-- One offset for each newline: where the next line begins. -/
theorem length_lineOffsetsFrom (off : ℕ) (data : Bytes) :
    (lineOffsetsFrom off data).length = data.count 0x0a := by
  induction data generalizing off with
  | nil => rfl
  | cons c data ih =>
    rw [lineOffsetsFrom, List.count_cons]
    by_cases hc : c = 10
    · rw [if_pos hc, List.length_cons, ih, if_pos (beq_iff_eq.mpr hc)]
    · rw [if_neg hc, ih, if_neg fun h => hc (beq_iff_eq.mp h), Nat.add_zero]

/-- The offsets of a text cut in two are those of its first part and those of the second, moved on.
-/
theorem lineOffsetsFrom_append (off : ℕ) (data data' : Bytes) : lineOffsetsFrom off (data ++ data')
    = lineOffsetsFrom off data ++ lineOffsetsFrom (off + data.length) data' := by
  induction data generalizing off with
  | nil => rfl
  | cons c data ih =>
    rw [List.cons_append, lineOffsetsFrom, lineOffsetsFrom, ih, List.length_cons,
      show off + 1 + data.length = off + (data.length + 1) by omega]
    split <;> rfl

/-- Where the ends of lines begin to be looked for makes no difference. -/
theorem scanLines_skipLine (hdrlen : ℕ) (buf : Bytes) (i : ℕ) (dump : BlobDump) :
    scanLines hdrlen (skipLine buf i).1 (skipLine buf i).2 dump = scanLines hdrlen buf i dump := by
  induction buf generalizing i with
  | nil => rfl
  | cons c buf ih =>
    rw [skipLine]
    split
    · rfl
    · next hc =>
      rw [ih, scanLines, if_neg hc]

/-- **The lines of a block** are put behind the others. -/
theorem Indexed.scanLines {i : ℕ} (h : Indexed dump offsets) (hi : hdrlen ≤ i) (buf : Bytes)
    (hmax : offsets.length + buf.count 0x0a < maxLines) :
    ∃ dump', scanLines hdrlen buf i dump = .ok dump'
      ∧ Indexed dump' (offsets ++ lineOffsetsFrom (dump.totalLen + (i - hdrlen)) buf)
      ∧ dump'.outfile = dump.outfile ∧ dump'.totalLen = dump.totalLen := by
  induction buf generalizing i dump offsets with
  | nil =>
    refine ⟨dump, rfl, ?_, rfl, rfl⟩
    rw [lineOffsetsFrom, List.append_nil]
    exact h
  | cons c buf ih =>
    have hnext : dump.totalLen + (i - hdrlen) + 1 = dump.totalLen + (i + 1 - hdrlen) := by omega
    rw [BlobDump.scanLines, lineOffsetsFrom, hnext]
    by_cases hc : c = 0x0a
    · rw [if_pos hc, if_pos hc]
      rw [hc, List.count_cons_self] at hmax
      obtain ⟨dump₁, hadd, h₁, hout₁, htotal₁⟩ :=
        h.addLine (by omega) (dump.totalLen + i - hdrlen + 1)
      have hlen : (offsets ++ [dump.totalLen + i - hdrlen + 1]).length = offsets.length + 1 :=
        List.length_append
      obtain ⟨dump', hscan, h', hout, htotal⟩ := ih h₁ (Nat.le_succ_of_le hi) (by rw [hlen]; omega)
      refine ⟨dump', ?_, ?_, hout.trans hout₁, htotal.trans htotal₁⟩
      · rw [hadd]
        exact hscan
      · rw [htotal₁, List.append_assoc, List.singleton_append,
          show dump.totalLen + i - hdrlen + 1 = dump.totalLen + (i + 1 - hdrlen) by omega] at h'
        exact h'
    · rw [if_neg hc, if_neg hc]
      rw [List.count_cons_of_ne hc] at hmax
      exact ih h (Nat.le_succ_of_le hi) hmax

/-- **Too many lines** are not put into a table. -/
theorem Indexed.scanLines_error {buf : Bytes} (h : Indexed dump offsets)
    (hlen : offsets.length < maxLines) (hmax : maxLines ≤ offsets.length + buf.count 0x0a) (i : ℕ) :
    BlobDump.scanLines hdrlen buf i dump = .error (.errno .nomem) := by
  induction buf generalizing i dump offsets with
  | nil =>
    rw [List.count_nil] at hmax
    omega
  | cons c buf ih =>
    rw [BlobDump.scanLines]
    by_cases hc : c = 0x0a
    · rw [if_pos hc]
      rw [hc, List.count_cons_self] at hmax
      by_cases hlast : offsets.length + 1 = maxLines
      · rw [h.addLine_error hlast]
        rfl
      · obtain ⟨dump₁, hadd, h₁, -, -⟩ := h.addLine (by omega) (dump.totalLen + i - hdrlen + 1)
        have hlen₁ : (offsets ++ [dump.totalLen + i - hdrlen + 1]).length = offsets.length + 1 :=
          List.length_append
        rw [hadd]
        exact ih h₁ (by omega) (by rw [hlen₁]; omega) (i + 1)
    · rw [if_neg hc]
      rw [List.count_cons_of_ne hc] at hmax
      exact ih h hlen hmax (i + 1)

/-! ## All blocks -/

/-- Everything, with a table of the lines. -/
def wantsLines : DumpWants := ⟨true, true⟩

/-- The table as soon as there are any data. -/
def started : BlobDump :=
  { nlines := 1, nalloc := allocChunksz, lineOffsets := some (List.replicate allocChunksz 0) }

theorem scanBlock_first (hdrlen : ℕ) (buf : Bytes) :
    scanBlock wantsLines hdrlen buf {} = scanLines hdrlen (buf.drop hdrlen) hdrlen started :=
  scanLines_skipLine hdrlen (buf.drop hdrlen) hdrlen _

/-- A block is scanned from its start as its lines are. -/
theorem Indexed.scanBlock (h : Indexed dump offsets) (buf : Bytes) :
    scanBlock wantsLines 0 buf dump = BlobDump.scanLines 0 buf 0 dump := by
  rw [BlobDump.scanBlock, if_neg (by decide), if_neg, List.drop_zero]
  rintro ⟨-, hnone⟩
  rw [h.table_eq] at hnone
  cases hnone

/-- **What is known after some blocks.** -/
structure HasRead (dump : BlobDump) (content : Bytes) : Prop where
  outfile_eq : dump.outfile = content
  totalLen_eq : dump.totalLen = content.length
  indexed : Indexed dump (0 :: lineOffsetsFrom 0 content)

theorem hasRead_started : HasRead started [] := ⟨rfl, rfl, rfl, rfl, rfl⟩

/-- What was scanned is written. -/
def withBlock (dump : BlobDump) (buf : Bytes) : BlobDump :=
  { dump with outfile := dump.outfile ++ buf, totalLen := dump.totalLen + buf.length }

theorem length_offsets (content : Bytes) :
    (0 :: lineOffsetsFrom 0 content).length = content.count 0x0a + 1 := by
  rw [List.length_cons, length_lineOffsetsFrom]

/-- **One block is read.** -/
theorem HasRead.scanLines (h : HasRead dump content) (hdrlen : ℕ) (buf : Bytes)
    (hmax : (content ++ buf).count 0x0a + 1 < maxLines) :
    ∃ dump', scanLines hdrlen buf hdrlen dump = .ok dump'
      ∧ HasRead (dump'.withBlock buf) (content ++ buf) := by
  rw [List.count_append] at hmax
  obtain ⟨dump', hscan, h', hout, htotal⟩ := h.indexed.scanLines (Nat.le_refl hdrlen) buf
    (by rw [length_offsets]; omega)
  refine ⟨dump', hscan, ?_, ?_, ?_⟩
  · rw [withBlock, hout, h.outfile_eq]
  · rw [withBlock, htotal, h.totalLen_eq, List.length_append]
  · rw [h.totalLen_eq, Nat.sub_self, List.cons_append, ← Nat.zero_add (content.length + 0),
      Nat.add_zero, ← lineOffsetsFrom_append] at h'
    exact ⟨h'.nlines_eq, h'.nalloc_eq, h'.table_eq⟩

/-- **Further blocks.** -/
theorem HasRead.dumpBlocks (h : HasRead dump content) (hne : ∀ buf ∈ blocks, buf ≠ [])
    (hmax : (content ++ blocks.flatten).count 0x0a + 1 < maxLines) :
    ∃ dump', dumpBlocks wantsLines 0 blocks dump = .ok dump'
      ∧ HasRead dump' (content ++ blocks.flatten) := by
  induction blocks generalizing dump content with
  | nil =>
    refine ⟨dump, rfl, ?_⟩
    rw [List.flatten_nil, List.append_nil]
    exact h
  | cons buf blocks ih =>
    rw [List.flatten_cons, ← List.append_assoc] at hmax ⊢
    obtain ⟨dump₁, hscan, h₁⟩ := h.scanLines 0 buf (by rw [List.count_append] at hmax; omega)
    obtain ⟨dump', hdump, h'⟩ := ih h₁ (fun b hb => hne b (List.mem_cons_of_mem _ hb)) hmax
    refine ⟨dump', ?_, h'⟩
    rw [BlobDump.dumpBlocks, if_neg (hne buf List.mem_cons_self), h.indexed.scanBlock, hscan,
      ok_bind]
    exact hdump

/-- **Further blocks with too many lines.** -/
theorem HasRead.dumpBlocks_error (h : HasRead dump content) (hne : ∀ buf ∈ blocks, buf ≠ [])
    (hlen : content.count 0x0a + 1 < maxLines)
    (hmax : maxLines ≤ (content ++ blocks.flatten).count 0x0a + 1) :
    BlobDump.dumpBlocks wantsLines 0 blocks dump = .error (.errno .nomem) := by
  induction blocks generalizing dump content with
  | nil =>
    rw [List.flatten_nil, List.append_nil] at hmax
    omega
  | cons buf blocks ih =>
    rw [List.flatten_cons, ← List.append_assoc] at hmax
    rw [BlobDump.dumpBlocks, if_neg (hne buf List.mem_cons_self), h.indexed.scanBlock]
    by_cases hbuf : (content ++ buf).count 0x0a + 1 < maxLines
    · obtain ⟨dump₁, hscan, h₁⟩ := h.scanLines 0 buf hbuf
      rw [hscan, ok_bind]
      exact ih h₁ (fun b hb => hne b (List.mem_cons_of_mem _ hb)) hbuf hmax
    · rw [List.count_append] at hbuf
      rw [h.indexed.scanLines_error (by rw [length_offsets]; omega) (by rw [length_offsets]; omega)]
      rfl

/-! ## The whole blob -/

/-- The first block has a header in front. -/
theorem dumpToFile_eq {rest : List Bytes} (hne : header ++ first ≠ []) :
    dumpToFile wantsLines header.length ((header ++ first) :: rest)
      = scanLines header.length first header.length started >>= fun dump =>
        dumpBlocks wantsLines 0 rest (dump.withBlock first) := by
  rw [dumpToFile, dumpBlocks, if_neg hne, scanBlock_first, List.drop_left, List.length_append,
    Nat.add_sub_cancel_left]
  refine bind_congr fun dump => ?_
  rw [if_neg (Nat.not_lt.mpr (Nat.le_add_right _ _))]
  rfl

/-- **A blob is dumped** as long as it does not have too many lines. -/
theorem IsRead.dumpToFile (h : IsRead header content blocks)
    (hmax : content.count 0x0a + 1 < maxLines) :
    ∃ dump, dumpToFile wantsLines header.length blocks = .ok dump ∧ HasRead dump content := by
  obtain ⟨first, rest, rfl, rfl⟩ := h.split
  have hne : ∀ buf ∈ rest, buf ≠ [] := fun buf hbuf => h.ne_nil buf (List.mem_cons_of_mem _ hbuf)
  obtain ⟨dump₁, hscan, h₁⟩ := hasRead_started.scanLines header.length first
    (by rw [List.count_append] at hmax; rw [List.nil_append]; omega)
  obtain ⟨dump, hdump, h'⟩ := h₁.dumpBlocks hne hmax
  refine ⟨dump, ?_, h'⟩
  rw [dumpToFile_eq (h.ne_nil _ List.mem_cons_self), hscan]
  exact hdump

/-- **A blob with too many lines** is not dumped. -/
theorem IsRead.dumpToFile_error (h : IsRead header content blocks)
    (hmax : maxLines ≤ content.count 0x0a + 1) :
    BlobDump.dumpToFile wantsLines header.length blocks = .error (.errno .nomem) := by
  obtain ⟨first, rest, rfl, rfl⟩ := h.split
  rw [dumpToFile_eq (h.ne_nil _ List.mem_cons_self)]
  by_cases hfirst : first.count 0x0a + 1 < maxLines
  · obtain ⟨dump₁, hscan, h₁⟩ := hasRead_started.scanLines header.length first hfirst
    have hne : ∀ buf ∈ rest, buf ≠ [] := fun buf hbuf => h.ne_nil buf (List.mem_cons_of_mem _ hbuf)
    rw [hscan]
    exact h₁.dumpBlocks_error hne hfirst hmax
  · rw [hasRead_started.indexed.scanLines_error]
    · rfl
    · decide
    · rw [length_offsets, List.count_nil]
      omega

/-- An entry that was written. -/
theorem Indexed.offsetAt (h : Indexed dump offsets) {k : ℕ} (hk : k < offsets.length) :
    dump.offsetAt k = offsets[k]? := by
  rw [BlobDump.offsetAt, h.table_eq, Option.bind_some, List.getElem?_append_left hk]

/-- **What was read** is as it should be. -/
theorem HasRead.dumps (h : HasRead dump content) : Dumps content dump := by
  refine ⟨h.outfile_eq, h.totalLen_eq, ?_, h.indexed.offsetAt (Nat.succ_pos _), ?_⟩
  · rw [h.indexed.nlines_eq, length_offsets]
    omega
  · intro before after hcontent
    have hcount : before.count 0x0a + 1 < (0 :: lineOffsetsFrom 0 content).length := by
      rw [length_offsets, hcontent, List.count_append, List.count_cons_self]
      omega
    rw [h.indexed.offsetAt hcount, List.getElem?_cons_succ, hcontent, lineOffsetsFrom_append,
      List.getElem?_append_right (Nat.le_of_eq (length_lineOffsetsFrom 0 before)),
      length_lineOffsetsFrom, Nat.sub_self, lineOffsetsFrom, if_pos rfl, Nat.zero_add,
      List.getElem?_cons_zero]

/-- **A blob is dumped as it should be** if and only if it has fewer lines than there can be. The
number of lines is an `int`, to which `ALLOC_CHUNKSZ` is added whenever the table is full. As long
as that is an `int`, what is dumped is the content and the offsets are those of its lines, in
whatever blocks the blob is read. -/
theorem dumps_iff (h : IsRead header content blocks) :
    (∃ dump, dumpToFile wantsLines header.length blocks = .ok dump ∧ Dumps content dump)
      ↔ 1 + content.count 0x0a < 2147483151 := by
  rw [Nat.add_comm]
  constructor
  · rintro ⟨dump, hdump, -⟩
    by_contra hmax
    rw [h.dumpToFile_error (Nat.not_lt.mp hmax)] at hdump
    cases hdump
  · intro hmax
    obtain ⟨dump, hdump, hread⟩ := h.dumpToFile hmax
    exact ⟨dump, hdump, hread.dumps⟩

/-- **The lines of a blob** are what `gotObjectBlobDumpToFile` takes them to be, as long as there is
a table of them. -/
theorem IsRead.lineOffsets (h : IsRead header content blocks)
    (hmax : content.count 0x0a + 1 < maxLines) :
    ∃ dump table, BlobDump.dumpToFile wantsLines header.length blocks = .ok dump
      ∧ dump.outfile = content ∧ dump.lineOffsets = some table
      ∧ table.take dump.nlines.toNat = gotObjectBlobDumpToFile header.length content := by
  obtain ⟨dump, hdump, hread⟩ := h.dumpToFile hmax
  obtain ⟨first, rest, hblocks, hcontent⟩ := h.split
  have hne : header.length + content.length ≠ 0 := by
    have hfirst := List.length_pos_iff.mpr
      (h.ne_nil (header ++ first) (hblocks ▸ List.mem_cons_self))
    rw [List.length_append] at hfirst
    rw [hcontent, List.length_append]
    omega
  refine ⟨dump, _, hdump, hread.outfile_eq, hread.indexed.table_eq, ?_⟩
  rw [hread.indexed.nlines_eq, Int.toNat_natCast, List.take_left, gotObjectBlobDumpToFile,
    if_neg hne]

/-- The end of a line is at the end of a block. -/
theorem dumps_iff_twoBlocks :
    ∃ dump, dumpToFile wantsLines ([0x42] : Bytes).length [[0x42, 0x0a], [0x61, 0x0a, 0x62]]
        = .ok dump
      ∧ Dumps [0x0a, 0x61, 0x0a, 0x62] dump :=
  (dumps_iff ⟨by decide, [0x0a], [[0x61, 0x0a, 0x62]], rfl, rfl⟩).mpr (by decide)

/-- **Nothing but ends of lines**, and too many of them. -/
theorem not_dumps_tooManyLines : ¬ ∀ (header content : Bytes) (blocks : List Bytes),
    IsRead header content blocks → content ≠ [] →
      ∃ dump, dumpToFile wantsLines header.length blocks = .ok dump ∧ Dumps content dump := by
  intro h
  have hne : List.replicate 2147483150 (0x0a : UInt8) ≠ [] := by
    rw [Ne, List.replicate_eq_nil_iff]
    decide
  have hread : IsRead [] (List.replicate 2147483150 0x0a) [List.replicate 2147483150 0x0a] := by
    refine ⟨fun buf hbuf => ?_, _, [], rfl, (List.append_nil _).symm⟩
    rw [List.mem_singleton.mp hbuf]
    exact hne
  obtain ⟨dump, hdump, -⟩ := h [] _ _ hread hne
  rw [hread.dumpToFile_error] at hdump
  · cases hdump
  · rw [List.count_replicate_self, maxLines]

end BlobDump

end Got

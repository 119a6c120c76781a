import Got.Delta
import Got.Lib.CopyProgram

/-!
# What a delta stream says

A delta stream is a patch: two declared sizes and a copy program. The
functions of the source never have that patch in hand, since they execute
each instruction as soon as it is read. Here the stream is read without
being executed, and the two loops are shown to be the runs of the program
they read, on a block of memory (`gotDeltaApplyInMem_eq_ok_iff`) and on a
file (`gotDeltaApply_eq_ok_iff`). What makes them succeed can be read off
the stream: that every copy stays within the bytes the code takes for its
base, and that the program produces as much as the stream declares.

The declared sizes are read here as the numbers they are, of any length.
-/

namespace Got

open CopyProgram

/-! ## Decoding -/

/-- The number at the beginning of a string of bytes, in groups of seven
bits from the least significant one on, and what follows it. -/
def leb128 : Bytes → Option (ℕ × Bytes)
  | [] => none
  | b :: rest =>
    if b &&& GOT_DELTA_SIZE_MORE = 0 then some (b.toNat % 128, rest)
    else (leb128 rest).map (fun r => (b.toNat % 128 + 128 * r.1, r.2))

/-- The instruction at the beginning of a string of bytes, and what follows
it. -/
def decodeInstr : Bytes → Option (Instr UInt8 × Bytes)
  | [] => none
  | c :: p =>
    if c &&& GOT_DELTA_BASE_COPY ≠ 0 then
      match parseOpcode (c :: p) with
      | .error _ => none
      | .ok (offset, len, q) => some (.copy offset len, q.tail)
    else if c.toNat = 0 ∨ p.length < c.toNat then none
    else some (.insert (p.take c.toNat), p.drop c.toNat)

/-- The instructions up to the end of a string of bytes. -/
def decodeInstrs : ℕ → Bytes → Option (List (Instr UInt8))
  | 0, _ => some []
  | _ + 1, [] => some []
  | fuel + 1, c :: p =>
    match decodeInstr (c :: p) with
    | none => none
    | some (i, q) => (decodeInstrs fuel q).map (i :: ·)

/-- **The patch a delta stream describes.** -/
def decodeDelta (deltaBuf : Bytes) : Option (Patch UInt8) := do
  let (baseSize, p) ← leb128 deltaBuf
  let (resultSize, p) ← leb128 p
  let instrs ← decodeInstrs p.length p
  return { baseSize, resultSize, instrs }

/-- **What the code reads from a delta stream**: the result size as
`parse_size` makes it out, and the instructions. None if the code gives up
on reading it. -/
def readDelta (deltaBuf : Bytes) : Option (ℕ × List (Instr UInt8)) :=
  if deltaBuf.length < GOT_DELTA_STREAM_LENGTH_MIN then none
  else
    match parseDeltaSizes deltaBuf with
    | .error _ => none
    | .ok (_, resultSize, p) =>
      match nextDeltaByte p with
      | .error _ => none
      | .ok p => (decodeInstrs p.length p).map (fun is => (resultSize.toNat, is))

/-! ## The code reads the patch -/

/-- Where the size parser succeeds, the bytes start with a number in the LEB128 encoding and end
where that number ends. -/
theorem leb128_of_parseSizeFrom {i : ℕ} {s s' : UInt64} {p q : Bytes}
    (h : parseSizeFrom i s p = .ok (s', q)) : ∃ n b r, q = b :: r ∧ leb128 p = some (n, r) := by
  induction p generalizing i s with
  | nil => exact nomatch h
  | cons b rest ih =>
    rw [parseSizeFrom] at h
    split at h
    · exact nomatch h
    dsimp only at h
    split at h
    · next hm =>
      obtain ⟨-, rfl⟩ := Prod.mk.inj (Except.ok.inj h)
      exact ⟨_, b, rest, rfl, if_pos hm⟩
    · next hm =>
      rw [leb128, if_neg hm]
      split at h
      · exact nomatch h
      · obtain ⟨n, b', r, hq, hn⟩ := ih h
        rw [hn]
        exact ⟨_, b', r, hq, rfl⟩

/-- Moving to the next byte leaves what follows the current one. -/
theorem nextDeltaByte_eq_ok_iff {p q : Bytes} :
    nextDeltaByte p = .ok q ↔ p.tail = q ∧ q ≠ [] := by
  match p with
  | [] => exact ⟨fun h => (nomatch h), fun h => absurd h.1.symm h.2⟩
  | [_] => exact ⟨fun h => (nomatch h), fun h => absurd h.1.symm h.2⟩
  | _ :: b :: rest =>
    refine ⟨fun h => ?_, fun h => ?_⟩
    · cases h
      exact ⟨rfl, List.cons_ne_nil b rest⟩
    · rw [← h.1]
      rfl

/-- **A stream the code can read describes a patch**, with the instructions
the code reads. -/
theorem decodeDelta_of_readDelta {deltaBuf : Bytes} {rs : ℕ} {is : List (Instr UInt8)}
    (h : readDelta deltaBuf = some (rs, is)) :
    ∃ p, decodeDelta deltaBuf = some p ∧ p.instrs = is := by
  unfold readDelta at h
  split at h
  · exact nomatch h
  split at h
  · exact nomatch h
  next resultSize p hsizes =>
  split at h
  · exact nomatch h
  next p' hnext =>
  obtain ⟨⟨bs, p₁⟩, h₁, hsizes⟩ := bind_eq_ok_iff.mp hsizes
  obtain ⟨p₂, h₂, hsizes⟩ := bind_eq_ok_iff.mp hsizes
  obtain ⟨⟨rs', p₃⟩, h₃, hsizes⟩ := bind_eq_ok_iff.mp hsizes
  cases hsizes
  obtain ⟨n, b, r, rfl, hn⟩ := leb128_of_parseSizeFrom h₁
  obtain ⟨m, b', r', rfl, hm⟩ := leb128_of_parseSizeFrom h₃
  obtain ⟨rfl, -⟩ := nextDeltaByte_eq_ok_iff.mp h₂
  obtain ⟨rfl, -⟩ := nextDeltaByte_eq_ok_iff.mp hnext
  cases hi : decodeInstrs r'.length r' with
  | none =>
    rw [List.tail_cons, hi] at h
    exact nomatch h
  | some is' =>
    rw [List.tail_cons, hi] at h
    obtain ⟨-, rfl⟩ := Prod.mk.inj (Option.some.inj h)
    refine ⟨⟨n, m, is'⟩, ?_, rfl⟩
    unfold decodeDelta
    rw [hn]
    show (do let (resultSize, p) ← leb128 r; _) = _
    rw [show leb128 r = some (m, r') from hm]
    show (do let instrs ← decodeInstrs r'.length r'; _) = _
    rw [hi]
    rfl

/-! ## Executing the patch

The two loops differ in where they copy from and in what they check, and
agree in how they read the stream. -/

/-- **A loop executes the stream it reads**: it stops where an instruction
cannot be read, or reaches further than `sz`, or produces more than fits, and
otherwise appends what the instruction evaluates to. -/
structure Executes (loop : ℕ → Bytes → Bytes → Bytes × Except GotErr Unit) (sz : ℕ)
    (fits : ℕ → Prop) (eval : Instr UInt8 → Bytes) : Prop where
  fits_le : ∀ {m n}, m ≤ n → fits n → fits m
  length_eval : ∀ {i}, i.reach ≤ sz → (eval i).length = i.size
  zero : ∀ p out, loop 0 p out = (out, .ok ())
  nil : ∀ fuel out, loop (fuel + 1) [] out = (out, .ok ())
  unread : ∀ {c p} fuel out, decodeInstr (c :: p) = none →
    ∃ e, loop (fuel + 1) (c :: p) out = (out, .error e)
  refuse : ∀ {c p i q} fuel out, decodeInstr (c :: p) = some (i, q) →
    ¬(i.reach ≤ sz ∧ fits (out.length + i.size)) →
    ∃ e, loop (fuel + 1) (c :: p) out = (out, .error e)
  execute : ∀ {c p i q} fuel out, decodeInstr (c :: p) = some (i, q) →
    i.reach ≤ sz → fits (out.length + i.size) →
    loop (fuel + 1) (c :: p) out = loop fuel q (out ++ eval i)

section

variable {loop : ℕ → Bytes → Bytes → Bytes × Except GotErr Unit} {sz : ℕ} {fits : ℕ → Prop}
variable {eval : Instr UInt8 → Bytes}

/-- **The loop runs the program it reads.** -/
theorem Executes.eq_ok_iff (h : Executes loop sz fits eval) (fuel : ℕ) (p out res : Bytes)
    (hout : fits out.length) :
    loop fuel p out = (res, .ok ()) ↔ ∃ is, decodeInstrs fuel p = some is ∧ InBounds sz is
      ∧ fits (out.length + size is) ∧ res = out ++ is.flatMap eval := by
  have hend : ∀ {out : Bytes}, fits out.length →
      ((out, Except.ok ()) = (res, (Except.ok () : Except GotErr Unit))
        ↔ ∃ is, some [] = some is ∧ InBounds sz is ∧ fits (out.length + size is)
          ∧ res = out ++ is.flatMap eval) := by
    intro out hout
    constructor
    · intro h'
      obtain ⟨rfl, -⟩ := Prod.mk.inj h'
      exact ⟨[], rfl, inBounds_nil sz, hout, (List.append_nil out).symm⟩
    · rintro ⟨is, his, -, -, rfl⟩
      rw [← Option.some.inj his, List.flatMap_nil, List.append_nil]
  have herr : ∀ (out : Bytes) e, (out, .error e) ≠ (res, (Except.ok () : Except GotErr Unit)) :=
    fun out e he => nomatch (Prod.mk.inj he).2
  induction fuel generalizing p out with
  | zero => rw [h.zero]; exact hend hout
  | succ fuel ih =>
    match p with
    | [] => rw [h.nil]; exact hend hout
    | c :: p =>
      rw [decodeInstrs]
      cases hi : decodeInstr (c :: p) with
      | none =>
        obtain ⟨e, he⟩ := h.unread fuel out hi
        rw [he]
        exact ⟨fun h' => absurd h' (herr out e), fun ⟨_, h', _⟩ => (nomatch h')⟩
      | some r =>
        obtain ⟨i, q⟩ := r
        by_cases hg : i.reach ≤ sz ∧ fits (out.length + i.size)
        · rw [h.execute fuel out hi hg.1 hg.2]
          have hlen : (out ++ eval i).length = out.length + i.size := by
            rw [List.length_append, h.length_eval hg.1]
          refine (ih q (out ++ eval i) (by rw [hlen]; exact hg.2)).trans ?_
          constructor
          · rintro ⟨is, his, hb, hs, rfl⟩
            refine ⟨i :: is, congrArg (Option.map (i :: ·)) his,
              (inBounds_cons _ _ _).mpr ⟨hg.1, hb⟩, ?_, ?_⟩
            · rw [size_cons, ← Nat.add_assoc, ← hlen]
              exact hs
            · rw [List.flatMap_cons, List.append_assoc]
          · rintro ⟨is, his, hb, hs, rfl⟩
            obtain ⟨is', his', rfl⟩ := Option.map_eq_some_iff.mp his
            refine ⟨is', his', ((inBounds_cons _ _ _).mp hb).2, ?_, ?_⟩
            · rw [hlen, Nat.add_assoc, ← size_cons]
              exact hs
            · rw [List.flatMap_cons, List.append_assoc]
        · -- an instruction the loop refuses is in no program it runs
          obtain ⟨e, he⟩ := h.refuse fuel out hi hg
          rw [he]
          refine ⟨fun h' => absurd h' (herr out e), ?_⟩
          rintro ⟨is, his, hb, hs, -⟩
          obtain ⟨is', -, rfl⟩ := Option.map_eq_some_iff.mp his
          rw [inBounds_cons] at hb
          exact absurd ⟨hb.1, h.fits_le (by rw [size_cons]; omega) hs⟩ hg

/-- What a program in bounds produces is as long as it says. -/
theorem Executes.length_flatMap (h : Executes loop sz fits eval) {is : List (Instr UInt8)}
    (hb : InBounds sz is) : (is.flatMap eval).length = size is := by
  induction is with
  | nil => rfl
  | cons i is ih =>
    rw [inBounds_cons] at hb
    rw [List.flatMap_cons, List.length_append, h.length_eval hb.1, ih hb.2, size_cons]

end

theorem decodeInstr_cons (c : UInt8) (p : Bytes) :
    decodeInstr (c :: p) = if c &&& GOT_DELTA_BASE_COPY ≠ 0 then
        match parseOpcode (c :: p) with
        | .error _ => none
        | .ok (offset, len, q) => some (.copy offset len, q.tail)
      else if c.toNat = 0 ∨ p.length < c.toNat then none
      else some (.insert (p.take c.toNat), p.drop c.toNat) := rfl

/-- How a stream begins that cannot be read. -/
theorem decodeInstr_eq_none {c : UInt8} {p : Bytes} (h : decodeInstr (c :: p) = none) :
    (c &&& GOT_DELTA_BASE_COPY ≠ 0 ∧ ∃ e, parseOpcode (c :: p) = .error e)
      ∨ (¬c &&& GOT_DELTA_BASE_COPY ≠ 0 ∧ (c.toNat = 0 ∨ p.length < c.toNat)) := by
  rw [decodeInstr_cons] at h
  by_cases hc : c &&& GOT_DELTA_BASE_COPY ≠ 0
  · rw [if_pos hc] at h
    refine Or.inl ⟨hc, ?_⟩
    cases ho : parseOpcode (c :: p) with
    | error e => exact ⟨e, rfl⟩
    | ok r => rw [ho] at h; exact nomatch h
  · rw [if_neg hc] at h
    refine Or.inr ⟨hc, ?_⟩
    by_contra hd
    rw [if_neg hd] at h
    exact nomatch h

/-- How a stream begins that can be read. -/
theorem decodeInstr_eq_some {c : UInt8} {p q : Bytes} {i : Instr UInt8}
    (h : decodeInstr (c :: p) = some (i, q)) :
    (c &&& GOT_DELTA_BASE_COPY ≠ 0 ∧ ∃ offset len r,
        parseOpcode (c :: p) = .ok (offset, len, r) ∧ i = .copy offset len ∧ q = r.tail)
      ∨ (¬c &&& GOT_DELTA_BASE_COPY ≠ 0 ∧ c.toNat ≠ 0 ∧ c.toNat ≤ p.length
        ∧ i = .insert (p.take c.toNat) ∧ q = p.drop c.toNat) := by
  rw [decodeInstr_cons] at h
  by_cases hc : c &&& GOT_DELTA_BASE_COPY ≠ 0
  · rw [if_pos hc] at h
    refine Or.inl ⟨hc, ?_⟩
    cases ho : parseOpcode (c :: p) with
    | error e => rw [ho] at h; exact nomatch h
    | ok r =>
      rw [ho] at h
      obtain ⟨hi, hq⟩ := Prod.mk.inj (Option.some.inj h)
      exact ⟨r.1, r.2.1, r.2.2, rfl, hi.symm, hq.symm⟩
  · rw [if_neg hc] at h
    refine Or.inr ⟨hc, ?_⟩
    split at h
    · exact nomatch h
    · next hd =>
      obtain ⟨hi, hq⟩ := Prod.mk.inj (Option.some.inj h)
      obtain ⟨hd, hd'⟩ := not_or.mp hd
      exact ⟨hd, by omega, hi.symm, hq.symm⟩

/-- The byte after the length byte is where the data is that it counts. -/
theorem nextDeltaByte_of_pos {c : UInt8} {p : Bytes} (hc : c.toNat ≠ 0) (hp : c.toNat ≤ p.length) :
    nextDeltaByte (c :: p) = .ok p := by
  refine nextDeltaByte_eq_ok_iff.mpr ⟨rfl, ?_⟩
  rintro rfl
  exact hc (Nat.le_zero.mp hp)

theorem nextDeltaByte_cons (c : UInt8) (p : Bytes) :
    nextDeltaByte (c :: p) = .error .badDelta ∨ nextDeltaByte (c :: p) = .ok p := by
  match p with
  | [] => exact Or.inl rfl
  | _ :: _ => exact Or.inr rfl

theorem copyFromBase_of_le {baseFile : Bytes} {offset size : ℕ}
    (h : offset + size ≤ baseFile.length) :
    copyFromBase baseFile offset size = .ok ((baseFile.drop offset).take size) := if_pos h

theorem copyFromBase_of_not_le {baseFile : Bytes} {offset size : ℕ}
    (h : ¬offset + size ≤ baseFile.length) :
    copyFromBase baseFile offset size = .error .io := if_neg h

theorem copyFromDelta_of_lt {p : Bytes} {len : ℕ} (h : p.length < len) :
    copyFromDelta p len = .error .badDelta := if_pos h

theorem copyFromDelta_of_le {p : Bytes} {len : ℕ} (h : len ≤ p.length) :
    copyFromDelta p len = .ok (p.take len, p.drop len) := if_neg (Nat.not_lt.mpr h)

/-- The loop in memory executes the stream: copies stay within `sz` bytes,
and there is room for `max` bytes. -/
theorem executes_deltaLoopInMem (baseBuf : Block) (sz max : ℕ) :
    Executes (deltaLoopInMem baseBuf sz max) sz (· ≤ max) (Instr.run baseBuf) where
  fits_le := Nat.le_trans
  length_eval := fun {i} _ => Instr.length_run baseBuf i
  zero := fun p out => by cases p <;> rfl
  nil := fun fuel out => rfl
  unread := by
    intro c p fuel out h
    rw [deltaLoopInMem]
    rcases decodeInstr_eq_none h with ⟨hc, e, ho⟩ | ⟨hc, hd⟩
    · rw [if_pos hc, ho]
      exact ⟨e, rfl⟩
    · rw [if_neg hc]
      dsimp only
      split
      · exact ⟨_, rfl⟩
      next hz =>
      rcases nextDeltaByte_cons c p with hn | hn <;> rw [hn]
      · exact ⟨_, rfl⟩
      · exact ⟨_, if_pos (Or.inl (hd.resolve_left hz))⟩
  refuse := by
    intro c p i q fuel out h hg
    rw [deltaLoopInMem]
    rcases decodeInstr_eq_some h with ⟨hc, offset, len, r, ho, rfl, rfl⟩ | ⟨hc, hz, hlen, rfl, rfl⟩
    · rw [if_pos hc, ho]
      refine ⟨_, if_pos ?_⟩
      simp only [Instr.reach, Instr.size] at hg
      omega
    · rw [if_neg hc]
      dsimp only
      rw [if_neg hz, nextDeltaByte_of_pos hz hlen]
      refine ⟨_, if_pos ?_⟩
      simp only [Instr.reach, Instr.size, List.length_take] at hg
      omega
  execute := by
    intro c p i q fuel out h hsz hmax
    rw [deltaLoopInMem]
    rcases decodeInstr_eq_some h with ⟨hc, offset, len, r, ho, rfl, rfl⟩ | ⟨hc, hz, hlen, rfl, rfl⟩
    · rw [if_pos hc, ho]
      refine if_neg ?_
      simp only [Instr.reach, Instr.size] at hsz hmax
      omega
    · rw [if_neg hc]
      dsimp only
      rw [if_neg hz, nextDeltaByte_of_pos hz hlen]
      refine if_neg ?_
      simp only [Instr.size, List.length_take] at hmax
      omega

/-- The loop on files executes the stream: copies stay within the file. -/
theorem executes_deltaLoop (baseFile : Bytes) :
    Executes (deltaLoop baseFile) baseFile.length (fun _ => True) (Instr.runList baseFile) where
  fits_le := fun _ h => h
  length_eval := fun {i} h => Instr.length_runList h
  zero := fun p out => by cases p <;> rfl
  nil := fun fuel out => rfl
  unread := by
    intro c p fuel out h
    rw [deltaLoop]
    rcases decodeInstr_eq_none h with ⟨hc, e, ho⟩ | ⟨hc, hd⟩
    · rw [if_pos hc, ho]
      exact ⟨e, rfl⟩
    · rw [if_neg hc]
      dsimp only
      split
      · exact ⟨_, rfl⟩
      next hz =>
      rcases nextDeltaByte_cons c p with hn | hn <;> rw [hn]
      · exact ⟨_, rfl⟩
      · dsimp only
        rw [copyFromDelta_of_lt (hd.resolve_left hz)]
        exact ⟨_, rfl⟩
  refuse := by
    intro c p i q fuel out h hg
    rw [deltaLoop]
    rcases decodeInstr_eq_some h with ⟨hc, offset, len, r, ho, rfl, rfl⟩ | ⟨hc, hz, hlen, rfl, rfl⟩
    · rw [if_pos hc, ho]
      dsimp only
      rw [copyFromBase_of_not_le (fun h' => hg ⟨h', trivial⟩)]
      exact ⟨_, rfl⟩
    · exact absurd ⟨Nat.zero_le _, trivial⟩ hg
  execute := by
    intro c p i q fuel out h hsz _
    rw [deltaLoop]
    rcases decodeInstr_eq_some h with ⟨hc, offset, len, r, ho, rfl, rfl⟩ | ⟨hc, hz, hlen, rfl, rfl⟩
    · rw [if_pos hc, ho]
      dsimp only
      rw [copyFromBase_of_le hsz]
      rfl
    · rw [if_neg hc]
      dsimp only
      rw [if_neg hz, nextDeltaByte_of_pos hz hlen]
      dsimp only
      rw [copyFromDelta_of_le hlen]
      rfl

/-! ## Applying a delta -/

/-- The last check: the loop ended without an error, and with as much output
as the stream declares. -/
theorem deltaResult_eq_ok_iff {resultSize : UInt64} {r : Bytes × Except GotErr Unit}
    {out : Bytes} :
    deltaResult resultSize r = .ok out ↔ r = (out, .ok ()) ∧ out.length = resultSize.toNat := by
  obtain ⟨out', r'⟩ := r
  unfold deltaResult
  split
  · next h =>
    refine ⟨fun h' => (nomatch h'), fun ⟨h', h''⟩ => ?_⟩
    obtain ⟨rfl, -⟩ := Prod.mk.inj h'
    exact absurd h'' h
  · next h =>
    cases r' with
    | error e => exact ⟨fun h' => (nomatch h'), fun ⟨h', _⟩ => (nomatch (Prod.mk.inj h').2)⟩
    | ok u =>
      refine ⟨fun h' => ?_, fun ⟨h', _⟩ => congrArg Except.ok (Prod.mk.inj h').1⟩
      obtain rfl := Except.ok.inj h'
      exact ⟨rfl, not_not.mp h⟩

/-- **Applying a delta succeeds** if the stream can be read, its copies stay
in bounds, and its program produces the declared size, and that is a size
that fits. -/
theorem Executes.applyDelta_eq_ok_iff {loop : ℕ → Bytes → Bytes → Bytes × Except GotErr Unit}
    {sz : ℕ} {fits : ℕ → Prop} {eval : Instr UInt8 → Bytes} (h : Executes loop sz fits eval)
    (h0 : fits 0) (deltaBuf out : Bytes) :
    applyDelta loop deltaBuf = .ok out ↔ ∃ is, readDelta deltaBuf = some (size is, is)
      ∧ InBounds sz is ∧ fits (size is) ∧ out = is.flatMap eval := by
  unfold applyDelta readDelta
  split
  · exact ⟨fun h' => (nomatch h'), fun ⟨_, h', _⟩ => (nomatch h')⟩
  cases hs : parseDeltaSizes deltaBuf with
  | error e => exact ⟨fun h' => (nomatch h'), fun ⟨_, h', _⟩ => (nomatch h')⟩
  | ok r =>
    obtain ⟨baseSize, resultSize, p⟩ := r
    show deltaResult resultSize _ = _ ↔ _
    rw [deltaResult_eq_ok_iff]
    dsimp only
    cases nextDeltaByte p with
    | error e =>
      exact ⟨fun h' => (nomatch (Prod.mk.inj h'.1).2), fun ⟨_, h', _⟩ => (nomatch h')⟩
    | ok p =>
      dsimp only
      rw [h.eq_ok_iff p.length p [] out h0]
      constructor
      · rintro ⟨⟨is, his, hb, hf, rfl⟩, hlen⟩
        rw [List.length_nil, Nat.zero_add] at hf
        refine ⟨is, ?_, hb, hf, List.nil_append _⟩
        rw [his, Option.map_some, ← hlen, List.nil_append, h.length_flatMap hb]
      · rintro ⟨is, his, hb, hf, rfl⟩
        obtain ⟨is', his', heq⟩ := Option.map_eq_some_iff.mp his
        obtain ⟨hsize, rfl⟩ := Prod.mk.inj heq
        refine ⟨⟨is', his', hb, ?_, (List.nil_append _).symm⟩, ?_⟩
        · rw [List.length_nil, Nat.zero_add]
          exact hf
        · rw [h.length_flatMap hb, hsize]

/-- **Applying a delta in memory** runs its program on the block. -/
theorem gotDeltaApplyInMem_eq_ok_iff (baseBuf : Block) (sz max : ℕ) (deltaBuf out : Bytes) :
    gotDeltaApplyInMem baseBuf sz deltaBuf max = .ok out
      ↔ ∃ is, readDelta deltaBuf = some (size is, is) ∧ InBounds sz is ∧ size is ≤ max
        ∧ out = run baseBuf is :=
  (executes_deltaLoopInMem baseBuf sz max).applyDelta_eq_ok_iff (Nat.zero_le max) deltaBuf out

/-- **Applying a delta to a file** runs its program on the file. -/
theorem gotDeltaApply_eq_ok_iff (baseFile deltaBuf out : Bytes) :
    gotDeltaApply baseFile deltaBuf = .ok out
      ↔ ∃ is, readDelta deltaBuf = some (size is, is) ∧ InBounds baseFile.length is
        ∧ out = runList baseFile is := by
  unfold gotDeltaApply
  rw [(executes_deltaLoop baseFile).applyDelta_eq_ok_iff trivial]
  simp only [true_and]
  rfl

/-! ## Memory and files -/

/-- Wherever data was written, it can be read. -/
theorem holds_write (b : Block) (data : Bytes) : Holds (b.write data) data := by
  intro i x hi
  rw [Block.write, List.getD_eq_getElem?_getD, hi, Option.getD_some]

/-- What the code reads has the size that the stream declares. -/
theorem gotDeltaGetSizes_of_readDelta {deltaBuf : Bytes} {n : ℕ} {is : List (Instr UInt8)}
    (h : readDelta deltaBuf = some (n, is)) :
    ∃ sizes, gotDeltaGetSizes deltaBuf = .ok sizes ∧ sizes.2.toNat = n := by
  unfold readDelta at h
  unfold gotDeltaGetSizes
  split at h
  · exact nomatch h
  next hlen =>
  rw [if_neg hlen]
  cases hs : parseDeltaSizes deltaBuf with
  | error e =>
    rw [hs] at h
    exact nomatch h
  | ok r =>
    rw [hs] at h
    dsimp only at h
    split at h
    · exact nomatch h
    · obtain ⟨is', -, heq⟩ := Option.map_eq_some_iff.mp h
      exact ⟨_, rfl, (Prod.mk.inj heq).1⟩

/-- **A delta is applied to a file as it is applied in memory**, if the limit of the output is not
below the size which the stream declares. What is behind the base in memory does not matter. -/
theorem gotDeltaApply_agrees (base deltaBuf : Bytes) (behind : Block) (maxoutsize : ℕ)
    (hmax : ∀ sizes, gotDeltaGetSizes deltaBuf = .ok sizes → sizes.2.toNat ≤ maxoutsize) :
    (gotDeltaApplyInMem (behind.write base) base.length deltaBuf maxoutsize).toOption =
      (gotDeltaApply base deltaBuf).toOption := by
  have hiff (out : Bytes) : gotDeltaApplyInMem (behind.write base) base.length deltaBuf maxoutsize =
      .ok out ↔ gotDeltaApply base deltaBuf = .ok out := by
    rw [gotDeltaApplyInMem_eq_ok_iff, gotDeltaApply_eq_ok_iff]
    refine exists_congr fun is => and_congr_right fun hread => and_congr_right fun hb => ?_
    obtain ⟨sizes, hsizes, hsize⟩ := gotDeltaGetSizes_of_readDelta hread
    rw [and_iff_right (hsize ▸ hmax sizes hsizes), run_eq_runList (holds_write behind base) hb]
  cases hfile : gotDeltaApply base deltaBuf with
  | ok out => rw [(hiff out).mpr hfile]
  | error e =>
    cases hmem : gotDeltaApplyInMem (behind.write base) base.length deltaBuf maxoutsize with
    | ok out => exact nomatch hfile.symm.trans ((hiff out).mp hmem)
    | error e' => rfl

/-- A delta which copies two bytes from the middle of a base of four bytes, and inserts one byte
behind them. -/
def copyDelta : Bytes := [4, 3, 0x91, 1, 2, 1, 7]

/-- The base is followed by other bytes, which are not copied. -/
theorem gotDeltaApply_agrees_copyDelta :
    (gotDeltaApplyInMem (Block.write (fun _ => 9) [1, 2, 3, 4]) 4 copyDelta 3).toOption =
        (gotDeltaApply [1, 2, 3, 4] copyDelta).toOption
      ∧ gotDeltaApply [1, 2, 3, 4] copyDelta = .ok [2, 3, 7] := by
  refine ⟨gotDeltaApply_agrees [1, 2, 3, 4] copyDelta (fun _ => 9) 3 fun sizes h => ?_, by decide⟩
  have hsizes : gotDeltaGetSizes copyDelta = .ok (4, 3) := by decide
  obtain rfl := Except.ok.inj (hsizes.symm.trans h)
  decide

end Got

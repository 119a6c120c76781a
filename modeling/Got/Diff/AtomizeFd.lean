import Got.Diff.Atomize

/-!
# Atoms of a text that is not mapped

A file that cannot be mapped into memory is read a buffer at a time, and a line may take
more than one read. How much a read returns is not under control, but it is something
unless the file is at its end.

There are two kinds of reads: those of the bytes of a line, and one behind a carriage
return, to find out if a line feed follows. The line feed is put to the line only if this
read returns nothing else. Where a text is mapped into memory it is another byte that is
looked at (`lineEnd`), so each loop has its own texts which it cuts differently than lines
are cut where every line end counts (`EndsAlike`).
-/

namespace Got

variable {ws : Bool} {data : Bytes} {hash : UInt32} {pos fuel : ℕ}

/-- **How many bytes are returned** by the reads at each position of a file. A position is
read from once by either kind of read. -/
structure Reads where
  line : ℕ → ℕ
  ahead : ℕ → ℕ

/-- `fread` into the buffer, which has 512 bytes. -/
def fread (size : ℕ) (rest : Bytes) : Bytes := rest.take (min 512 (max 1 size))

/-- The loop over the bytes in the buffer. -/
def scanBuf (ws : Bool) : Bytes → UInt32 → ℕ → UInt32 × ℕ × UInt8
  | [], hash, lineEnd => (hash, lineEnd, 0)
  | c :: buf, hash, lineEnd =>
    if c ≠ 13 ∧ c ≠ 10 then
      scanBuf ws buf (if ws ∧ isspace c then hash else diffAtomHashUpdate hash c) (lineEnd + 1)
    else (hash, lineEnd, c)

/-- The loop over the reads of a line. -/
def scanLine (reads : Reads) (ws : Bool) (data : Bytes) : ℕ → UInt32 → ℕ → UInt32 × ℕ × UInt8
  | 0, hash, lineEnd => (hash, lineEnd, 0)
  | fuel + 1, hash, lineEnd =>
    if lineEnd < data.length then
      let (hash, lineEnd', eol) :=
        scanBuf ws (fread (reads.line lineEnd) (data.drop lineEnd)) hash lineEnd
      if eol = 0 then scanLine reads ws data fuel hash lineEnd' else (hash, lineEnd', eol)
    else (hash, lineEnd, 0)

/-- Where a line ends, given where it ends without its end. -/
def fdLineEnd (reads : Reads) (data : Bytes) (lineEnd : ℕ) (eol : UInt8) : ℕ :=
  let end_ := if lineEnd < data.length then lineEnd + 1 else lineEnd
  if end_ < data.length ∧ eol = 13 ∧ fread (reads.ahead end_) (data.drop end_) = [10] then end_ + 1
  else end_

/-- **What is noted down of an atom.** -/
structure AtomAt where
  pos : ℕ
  len : ℕ
  hash : UInt32
  deriving DecidableEq

/-- The loop of `diff_data_atomize_text_lines_fd`: a line is scanned through the read buffer, and
its end looked up in the file again. -/
def atomizeFdLoop (reads : Reads) (ws : Bool) (data : Bytes) : ℕ → ℕ → List AtomAt
  | 0, _ => []
  | fuel + 1, pos =>
    if pos < data.length then
      let (hash, lineEnd, eol) := scanLine reads ws data data.length 0 pos
      let end_ := fdLineEnd reads data lineEnd eol
      ⟨pos, end_ - pos, hash⟩ :: atomizeFdLoop reads ws data fuel end_
    else []

/-- **`diff_data_atomize_text_lines_fd`** -/
def diffDataAtomizeTextLinesFd (reads : Reads) (ws : Bool) (data : Bytes) : List AtomAt :=
  atomizeFdLoop reads ws data data.length 0

/-- **Where atoms are**, one after the other. -/
def atomsFrom : ℕ → List DiffAtom → List AtomAt
  | _, [] => []
  | pos, a :: atoms => ⟨pos, a.data.length, a.hash⟩ :: atomsFrom (pos + a.data.length) atoms

/-! ## One line -/

/-- A byte that does not end a line. -/
def inLine (c : UInt8) : Bool := c ≠ 13 ∧ c ≠ 10

/-- **A line up to its end**, its hash and how it ends. -/
def lineOf (ws : Bool) (rest : Bytes) (hash : UInt32) (pos : ℕ) : UInt32 × ℕ × UInt8 :=
  ((rest.takeWhile inLine).foldl (fun hash c =>
      if ws ∧ isspace c then hash else diffAtomHashUpdate hash c) hash,
    pos + (rest.takeWhile inLine).length, (rest.dropWhile inLine).headD 0)

/-- Scanning a buffer hashes the line that starts there and stops at its end. -/
theorem scanBuf_eq (ws : Bool) (buf : Bytes) (hash : UInt32) (pos : ℕ) :
    scanBuf ws buf hash pos = lineOf ws buf hash pos := by
  induction buf generalizing hash pos with
  | nil => rfl
  | cons c buf ih =>
    rw [scanBuf]
    split
    · next hc =>
      have hin : inLine c = true := by simpa [inLine] using hc
      rw [ih, lineOf, lineOf, List.takeWhile_cons_of_pos hin, List.dropWhile_cons_of_pos hin,
        List.foldl_cons, List.length_cons, Nat.add_right_comm, Nat.add_assoc]
    · next hc =>
      have hin : ¬inLine c = true := by simpa [inLine] using hc
      rw [lineOf, List.takeWhile_cons_of_neg hin, List.dropWhile_cons_of_neg hin]
      rfl

/-- A read that is not at the end of the file reads something. -/
theorem fread_ne_nil (size : ℕ) {rest : Bytes} (h : rest ≠ []) : fread size rest ≠ [] := by
  intro hnil
  rw [fread, List.take_eq_nil_iff] at hnil
  rcases hnil with hz | hnil
  · omega
  · exact h hnil

/-- A line ends with one of two bytes, if it has an end. -/
theorem headD_dropWhile_eq_zero_iff (rest : Bytes) :
    (rest.dropWhile inLine).headD 0 = 0 ↔ rest.dropWhile inLine = [] := by
  refine ⟨fun h => ?_, fun h => by rw [h]; rfl⟩
  cases heq : rest.dropWhile inLine with
  | nil => rfl
  | cons c tail =>
    have hc := List.head?_dropWhile_not inLine rest
    rw [heq] at hc h
    rw [List.headD_cons] at h
    rw [List.head?_cons, h] at hc
    exact absurd hc (by decide)

/-- **Any number of reads.** -/
theorem scanLine_eq (reads : Reads) (ws : Bool) (hfuel : data.length ≤ pos + fuel) :
    scanLine reads ws data fuel hash pos = lineOf ws (data.drop pos) hash pos := by
  induction fuel generalizing hash pos with
  | zero =>
    rw [scanLine, List.drop_eq_nil_of_le (by omega)]
    rfl
  | succ fuel ih =>
    rw [scanLine]
    split
    swap
    · rw [List.drop_eq_nil_of_le (by omega)]
      rfl
    next hpos =>
    have hne := fread_ne_nil (reads.line pos)
      (show data.drop pos ≠ [] by rw [Ne, List.drop_eq_nil_iff]; omega)
    obtain ⟨rest, hrest⟩ : ∃ rest, data.drop pos = fread (reads.line pos) (data.drop pos) ++ rest :=
      ⟨_, (List.take_append_drop _ _).symm⟩
    generalize fread (reads.line pos) (data.drop pos) = buf at hne hrest
    rw [scanBuf_eq, lineOf]
    dsimp only
    split
    · next heol =>
      -- there is no line end in the buffer
      have hall := (headD_dropWhile_eq_zero_iff buf).mp heol
      have htake : buf.takeWhile inLine = buf := by
        conv_rhs => rw [← @List.takeWhile_append_dropWhile _ inLine buf, hall, List.append_nil]
      have hlen := List.length_pos_iff.mpr hne
      have hdrop : data.drop (pos + buf.length) = rest := by
        rw [← List.drop_drop, hrest, List.drop_left]
      rw [htake, ih (by omega), hdrop, hrest, lineOf, lineOf, List.takeWhile_append,
        if_pos (by rw [htake]), List.dropWhile_append, if_pos (by rw [hall]; rfl),
        List.foldl_append, List.length_append, Nat.add_assoc]
    · next heol =>
      have hsome : ¬(buf.dropWhile inLine).isEmpty = true := by
        rw [List.isEmpty_iff]
        exact fun h => heol ((headD_dropWhile_eq_zero_iff buf).mpr h)
      have hshort : (buf.takeWhile inLine).length ≠ buf.length := by
        intro h
        have := congrArg List.length (@List.takeWhile_append_dropWhile _ inLine buf)
        rw [List.length_append, h] at this
        exact hsome (List.isEmpty_iff.mpr (List.eq_nil_of_length_eq_zero (by omega)))
      rw [hrest, lineOf, List.takeWhile_append, if_neg hshort, List.dropWhile_append,
        if_neg hsome]
      cases heq : buf.dropWhile inLine with
      | nil => exact absurd (by rw [heq]; rfl) hsome
      | cons c tail => rfl

/-! ## The whole text -/

/-- The two loops. -/
theorem atomizeFdLoop_succ (reads : Reads) (ws : Bool) (hpos : pos < data.length) (fuel : ℕ) :
    atomizeFdLoop reads ws data (fuel + 1) pos
      = let body := (data.drop pos).takeWhile inLine
        let end_ := fdLineEnd reads data (pos + body.length) ((data[pos + body.length]?).getD 0)
        ⟨pos, end_ - pos, lineHash ws body⟩ :: atomizeFdLoop reads ws data fuel end_ := by
  rw [atomizeFdLoop, if_pos hpos, scanLine_eq reads ws (Nat.le_add_left _ _)]
  have hhead : ((data.drop pos).dropWhile inLine).headD 0
      = (data[pos + ((data.drop pos).takeWhile inLine).length]?).getD 0 := by
    have hsplit := @List.takeWhile_append_dropWhile _ inLine (data.drop pos)
    have hget := congrArg (fun l : Bytes => l[((data.drop pos).takeWhile inLine).length]?) hsplit
    rw [List.getElem?_append_right le_rfl, Nat.sub_self, List.getElem?_drop] at hget
    rw [← hget, List.headD_eq_head?_getD, List.head?_eq_getElem?]
  rw [lineOf, hhead]
  rfl

/-- **A position where a line ends alike**: no carriage return which is followed by a line
feed is put to this line, and no read finds a line feed that is put to it. -/
def EndsAlike (reads : Reads) (data : Bytes) (i : ℕ) : Prop :=
  data[i]? = some 13 ∨ data[i]? = some 10 →
    ¬(data[i + 1]? = some 13 ∧ data[i + 2]? = some 10)
      ∧ ¬(data[i]? = some 13 ∧ fread (reads.ahead (i + 1)) (data.drop (i + 1)) = [10])

/-- Where the first line ends. -/
theorem firstEnd_spec (data : Bytes) (hpos : pos ≤ data.length) :
    let lineEnd := pos + ((data.drop pos).takeWhile inLine).length
    lineEnd ≤ data.length
      ∧ (∀ i, pos ≤ i → i < lineEnd → ¬(data[i]? = some 13 ∨ data[i]? = some 10))
      ∧ (lineEnd < data.length → data[lineEnd]? = some 13 ∨ data[lineEnd]? = some 10) := by
  have hsplit := @List.takeWhile_append_dropWhile _ inLine (data.drop pos)
  have hin : ∀ c ∈ (data.drop pos).takeWhile inLine, inLine c = true :=
    fun c hc => List.mem_takeWhile_imp hc
  have hend := List.head?_dropWhile_not inLine (data.drop pos)
  generalize (data.drop pos).takeWhile inLine = body at hsplit hin ⊢
  generalize (data.drop pos).dropWhile inLine = tail at hsplit hend
  have hlen := congrArg List.length hsplit
  rw [List.length_append, List.length_drop] at hlen
  refine ⟨by omega, fun i hi hlt => ?_, fun hlt => ?_⟩
  · have hget : data[i]? = body[i - pos]? := by
      rw [← List.getElem?_append_left (by omega : i - pos < body.length), hsplit,
        List.getElem?_drop, Nat.add_sub_of_le hi]
    rw [hget]
    rintro (h | h)
    · exact absurd (hin _ (List.mem_of_getElem? h)) (by decide)
    · exact absurd (hin _ (List.mem_of_getElem? h)) (by decide)
  · have hget : data[pos + body.length]? = tail.head? := by
      rw [← List.getElem?_drop, ← hsplit, List.getElem?_append_right le_rfl, Nat.sub_self,
        List.head?_eq_getElem?]
    cases tail with
    | nil =>
      rw [List.length_nil] at hlen
      omega
    | cons c tail =>
      have hc : c = 13 ∨ c = 10 := by
        by_contra hne
        rw [List.head?_cons] at hend
        exact Bool.false_ne_true (hend.symm.trans (by simpa [inLine] using hne))
      rw [hget, List.head?_cons]
      exact hc.imp (congrArg some) (congrArg some)

/-- A read of a single byte gets the next one. -/
theorem fread_eq_singleton {size : ℕ} {rest : Bytes} {c : UInt8} (h : fread size rest = [c]) :
    rest.head? = some c := by
  cases rest with
  | nil => exact nomatch (List.take_nil.symm.trans h)
  | cons d rest =>
    obtain ⟨n, hn⟩ : ∃ n, min 512 (max 1 size) = n + 1 := ⟨min 512 (max 1 size) - 1, by omega⟩
    rw [fread, hn, List.take_succ_cons] at h
    rw [List.head?_cons, List.head_eq_of_cons_eq h]

theorem lineEnd_le (data : Bytes) {body : ℕ} (h : body ≤ data.length) :
    lineEnd data body ≤ data.length := by
  unfold lineEnd
  dsimp only
  split <;> split <;> omega

/-- Where a line ends, in either loop. -/
theorem lineEnds_spec (reads : Reads) (data : Bytes) {pos body : ℕ}
    (hend : data[pos + body]? = some 13 ∨ data[pos + body]? = some 10) :
    pos + body < fdLineEnd reads data (pos + body) ((data[pos + body]?).getD 0)
      ∧ (fdLineEnd reads data (pos + body) ((data[pos + body]?).getD 0)
          = pos + lineEnd (data.drop pos) body ↔ EndsAlike reads data (pos + body))
      ∧ (EndsAlike reads data (pos + body) → lineEnd (data.drop pos) body = body + 1) := by
  have hlt : pos + body < data.length := by
    by_contra h
    rw [List.getElem?_eq_none (by omega)] at hend
    exact hend.elim (fun h => nomatch h) fun h => nomatch h
  have hthirteen : (data[pos + body]?).getD 0 = 13 ↔ data[pos + body]? = some 13 := by
    rcases hend with h | h <;> rw [h] <;> decide
  -- what is asked in the loops
  have hmapped : lineEnd (data.drop pos) body
      = if data[pos + body + 1]? = some 13 ∧ data[pos + body + 2]? = some 10 then body + 2
        else body + 1 := by
    unfold lineEnd
    dsimp only
    rw [List.length_drop, if_pos (show body < data.length - pos by omega),
      List.getElem?_drop, List.getElem?_drop,
      show pos + (body + 1) = pos + body + 1 by omega,
      show pos + (body + 1 + 1) = pos + body + 2 by omega]
    refine if_congr ⟨fun h => h.2, fun h => ⟨?_, h⟩⟩ rfl rfl
    have := (List.getElem?_eq_some_iff.mp h.2).1
    omega
  have hread : fdLineEnd reads data (pos + body) ((data[pos + body]?).getD 0)
      = if data[pos + body]? = some 13
            ∧ fread (reads.ahead (pos + body + 1)) (data.drop (pos + body + 1)) = [10]
        then pos + body + 2 else pos + body + 1 := by
    unfold fdLineEnd
    dsimp only
    rw [if_pos hlt]
    refine if_congr ⟨fun h => ⟨hthirteen.mp h.2.1, h.2.2⟩, fun h => ⟨?_, hthirteen.mpr h.1, h.2⟩⟩
      rfl rfl
    have hhead := fread_eq_singleton h.2
    rw [List.head?_drop] at hhead
    exact (List.getElem?_eq_some_iff.mp hhead).1
  -- a byte is not two different ones
  have hnot : data[pos + body + 1]? = some 13 →
      fread (reads.ahead (pos + body + 1)) (data.drop (pos + body + 1)) ≠ [10] := by
    intro h hfread
    have hhead := fread_eq_singleton hfread
    rw [List.head?_drop, h] at hhead
    exact absurd hhead (by decide)
  rw [hread, hmapped]
  refine ⟨?_, ?_, ?_⟩
  · split <;> omega
  · unfold EndsAlike
    constructor
    · intro heq _
      split at heq
      · next hp =>
        rw [if_neg (fun hq => hnot hq.1 hp.2)] at heq
        omega
      next hp =>
      split at heq
      · omega
      · next hq => exact ⟨hq, hp⟩
    · intro h
      rw [if_neg (h hend).1, if_neg (h hend).2, Nat.add_assoc]
  · intro h
    rw [if_neg (h hend).1]

/-- **The atoms are the same** if and only if all lines end alike. -/
theorem atomizeFdLoop_eq_iff (reads : Reads) (ws : Bool) (hpos : pos ≤ data.length)
    (hfuel : data.length ≤ pos + fuel) :
    atomizeFdLoop reads ws data fuel pos = atomsFrom pos (atomizeLoop ws fuel (data.drop pos))
      ↔ ∀ i, pos ≤ i → EndsAlike reads data i := by
  have hbehind : ∀ i, data.length ≤ i → EndsAlike reads data i := by
    intro i hi hget
    rw [List.getElem?_eq_none hi] at hget
    exact hget.elim (fun h => nomatch h) fun h => nomatch h
  induction fuel generalizing pos with
  | zero => exact iff_of_true rfl fun i hi => hbehind i (by omega)
  | succ fuel ih =>
    rcases Nat.eq_or_lt_of_le hpos with heq | hlt
    · rw [atomizeFdLoop, if_neg (by omega), List.drop_eq_nil_of_le (by omega)]
      exact iff_of_true rfl fun i hi => hbehind i (by omega)
    have hne : data.drop pos ≠ [] := by
      rw [Ne, List.drop_eq_nil_iff]
      omega
    obtain ⟨hle, hbody, hend⟩ := firstEnd_spec data hpos
    have hmapped : atomsFrom pos (atomizeLoop ws (fuel + 1) (data.drop pos))
        = let body := (data.drop pos).takeWhile inLine
          let len := lineEnd (data.drop pos) body.length
          ⟨pos, ((data.drop pos).take len).length, lineHash ws body⟩
            :: atomsFrom (pos + ((data.drop pos).take len).length)
              (atomizeLoop ws fuel (data.drop (pos + len))) := by
      rw [atomizeLoop, List.drop_drop]
      · rfl
      · exact hne
    rw [atomizeFdLoop_succ reads ws hlt, hmapped]
    dsimp only at hle hbody hend ⊢
    generalize (data.drop pos).takeWhile inLine = line at hle hbody hend ⊢
    rcases Nat.eq_or_lt_of_le hle with hlast | hlast
    · -- the last line, which has no end
      have hfd : fdLineEnd reads data (pos + line.length) ((data[pos + line.length]?).getD 0)
          = pos + line.length := by
        unfold fdLineEnd
        dsimp only
        rw [if_neg (show ¬pos + line.length < data.length by omega), if_neg (by omega)]
      have hlen : lineEnd (data.drop pos) line.length = line.length := by
        unfold lineEnd
        dsimp only
        rw [List.length_drop, if_neg (show ¬line.length < data.length - pos by omega),
          if_neg (by omega)]
      have hnil : data.drop (pos + line.length) = [] := List.drop_eq_nil_of_le hlast.ge
      have hloop : atomizeLoop ws fuel [] = [] := by cases fuel <;> rfl
      have hfdloop : atomizeFdLoop reads ws data fuel (pos + line.length) = [] := by
        cases fuel with
        | zero => rfl
        | succ fuel => rw [atomizeFdLoop, if_neg (by omega)]
      rw [hfd, hlen, hnil, hloop, hfdloop, List.length_take, List.length_drop,
        Nat.min_eq_left (by omega), Nat.add_sub_cancel_left]
      refine iff_of_true rfl fun i hi => ?_
      rcases Nat.lt_or_ge i (pos + line.length) with h | h
      · exact fun hget => absurd hget (hbody i hi h)
      · exact hbehind i (by omega)
    obtain ⟨hgt, hiff, hsucc⟩ := lineEnds_spec reads data (hend hlast)
    have hlen := lineEnd_le (data.drop pos) (show line.length ≤ (data.drop pos).length by
      rw [List.length_drop]; omega)
    rw [List.length_take, Nat.min_eq_left hlen]
    by_cases hends : EndsAlike reads data (pos + line.length)
    · rw [hiff.mpr hends, hsucc hends, Nat.add_sub_cancel_left, List.cons_inj_right]
      refine (ih (by omega) (by omega)).trans ⟨fun h i hi => ?_, fun h i hi => h i (by omega)⟩
      rcases Nat.lt_trichotomy i (pos + line.length) with hbefore | rfl | hafter
      · exact fun hget => absurd hget (hbody i hi hbefore)
      · exact hends
      · exact h i hafter
    · refine iff_of_false (fun h => hends (hiff.mp ?_)) fun h => hends (h _ (Nat.le_add_right _ _))
      have hhead := congrArg AtomAt.len (List.head_eq_of_cons_eq h)
      dsimp only at hhead
      omega

/-! ## No byte is left out -/

/-- The end of a line is behind its last byte, and not behind the end of the file. -/
theorem fdLineEnd_bounds (reads : Reads) (data : Bytes) {lineEnd : ℕ} (h : lineEnd ≤ data.length)
    (eol : UInt8) :
    lineEnd ≤ fdLineEnd reads data lineEnd eol
      ∧ (lineEnd < data.length → lineEnd < fdLineEnd reads data lineEnd eol)
      ∧ fdLineEnd reads data lineEnd eol ≤ data.length := by
  unfold fdLineEnd
  dsimp only
  split <;> split <;> exact ⟨by omega, by omega, by omega⟩

/-- **Atoms cover a text**: none of them is empty, and together they are the text. -/
def CoversText (data : Bytes) (atoms : List AtomAt) : Prop :=
  (∀ atom ∈ atoms, 0 < atom.len)
    ∧ (atoms.map fun atom => (data.drop atom.pos).take atom.len).flatten = data

/-- **Nothing of a file on disk is lost.** No atom is empty, and the stretches of the atoms put
together are the rest of the file. -/
theorem atomizeFdLoop_covers (reads : Reads) (ws : Bool) (hpos : pos ≤ data.length)
    (hfuel : data.length ≤ pos + fuel) :
    (∀ atom ∈ atomizeFdLoop reads ws data fuel pos, 0 < atom.len)
      ∧ ((atomizeFdLoop reads ws data fuel pos).map fun atom =>
          (data.drop atom.pos).take atom.len).flatten = data.drop pos := by
  induction fuel generalizing pos with
  | zero =>
    rw [List.drop_eq_nil_of_le (by omega)]
    exact ⟨fun _ h => absurd h List.not_mem_nil, rfl⟩
  | succ fuel ih =>
    rcases Nat.eq_or_lt_of_le hpos with heq | hlt
    · rw [atomizeFdLoop, if_neg (by omega), List.drop_eq_nil_of_le (by omega)]
      exact ⟨fun _ h => absurd h List.not_mem_nil, rfl⟩
    obtain ⟨hle, -, -⟩ := firstEnd_spec data hpos
    rw [atomizeFdLoop_succ reads ws hlt]
    dsimp only at hle ⊢
    obtain ⟨hge, hgt, hend⟩ := fdLineEnd_bounds reads data hle
      ((data[pos + ((data.drop pos).takeWhile inLine).length]?).getD 0)
    generalize fdLineEnd reads data _ _ = end_ at hge hgt hend ⊢
    obtain ⟨hlen, hall⟩ := ih hend (by omega)
    refine ⟨fun atom hmem => ?_, ?_⟩
    · rcases List.mem_cons.mp hmem with rfl | hmem
      · show 0 < end_ - pos
        omega
      · exact hlen atom hmem
    · rw [List.map_cons, List.flatten_cons, hall]
      conv_rhs => rw [← List.take_append_drop (end_ - pos) (data.drop pos), List.drop_drop,
        Nat.add_sub_of_le (by omega)]

/-- Atoms placed one after another cover what they were cut from. -/
theorem atomsFrom_covers (pre : Bytes) {atoms : List DiffAtom} (h : ∀ a ∈ atoms, a.data ≠ []) :
    (∀ atom ∈ atomsFrom pre.length atoms, 0 < atom.len)
      ∧ ((atomsFrom pre.length atoms).map fun atom =>
          ((pre ++ (atoms.map DiffAtom.data).flatten).drop atom.pos).take atom.len).flatten
        = (atoms.map DiffAtom.data).flatten := by
  induction atoms generalizing pre with
  | nil => exact ⟨fun _ h => absurd h List.not_mem_nil, rfl⟩
  | cons a atoms ih =>
    obtain ⟨hlen, hall⟩ := ih (pre ++ a.data) fun a ha => h a (List.mem_cons_of_mem _ ha)
    rw [List.length_append] at hlen hall
    rw [List.append_assoc] at hall
    refine ⟨fun atom hmem => ?_, ?_⟩
    · rcases List.mem_cons.mp hmem with rfl | hmem
      · exact List.length_pos_iff.mpr (h a List.mem_cons_self)
      · exact hlen atom hmem
    · rw [atomsFrom, List.map_cons, List.map_cons, List.flatten_cons, List.flatten_cons, hall,
        List.drop_left, List.take_left]

/-- No atom is empty, so that the loop goes forward. -/
theorem ne_nil_of_mem_atomizeLoop {a : DiffAtom} (h : a ∈ atomizeLoop ws fuel data) :
    a.data ≠ [] := by
  induction fuel generalizing data with
  | zero => exact absurd h List.not_mem_nil
  | succ fuel ih =>
    cases data with
    | nil => exact absurd h List.not_mem_nil
    | cons c data =>
      rw [atomizeLoop] at h
      · rcases List.mem_cons.mp h with rfl | h
        · have hpos := lineEnd_pos (List.cons_ne_nil c data)
            ((c :: data).takeWhile (fun c => c ≠ 13 ∧ c ≠ 10)).length
          rw [Ne, List.take_eq_nil_iff]
          rintro (h | h)
          · omega
          · cases h
        · exact ih h
      · exact List.cons_ne_nil c data

/-- **The two atomizers**: either covers the text, and the atoms are the same, with the same
positions, lengths and hashes, if and only if all lines end alike. -/
theorem diffDataAtomizeTextLinesFd_iff (reads : Reads) (ws : Bool) (data : Bytes) :
    diffDataAtomizeTextLinesFd reads ws data = atomsFrom 0 (diffDataAtomizeTextLines ws data)
        ∧ CoversText data (diffDataAtomizeTextLinesFd reads ws data)
        ∧ CoversText data (atomsFrom 0 (diffDataAtomizeTextLines ws data))
      ↔ ∀ i, EndsAlike reads data i := by
  have hfuel : data.length ≤ 0 + data.length := Nat.le_add_left _ _
  have hfd := atomizeFdLoop_covers reads ws (Nat.zero_le _) hfuel
  have hne : ∀ a ∈ diffDataAtomizeTextLines ws data, a.data ≠ [] :=
    fun a ha => ne_nil_of_mem_atomizeLoop ha
  have hmapped := atomsFrom_covers [] hne
  rw [flatten_atoms] at hmapped
  have hiff := atomizeFdLoop_eq_iff reads ws (Nat.zero_le _) hfuel
  constructor
  · intro h i
    exact hiff.mp h.1 i (Nat.zero_le i)
  · intro h
    exact ⟨hiff.mpr fun i _ => h i, hfd, hmapped⟩

/-- **A line feed behind a carriage return**, at the end of a file which is read as far as it
goes. -/
theorem diffDataAtomizeTextLinesFd_ne : ¬ ∀ (reads : Reads) (ws : Bool) (data : Bytes),
    diffDataAtomizeTextLinesFd reads ws data = atomsFrom 0 (diffDataAtomizeTextLines ws data)
      ∧ CoversText data (diffDataAtomizeTextLinesFd reads ws data)
      ∧ CoversText data (atomsFrom 0 (diffDataAtomizeTextLines ws data)) := by
  intro h
  exact absurd (h ⟨fun _ => 512, fun _ => 512⟩ false [0x61, 13, 10]).1 (by decide)

end Got

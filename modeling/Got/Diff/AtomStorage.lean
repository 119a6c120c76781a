import Got.Diff.AtomizeFd
import Got.Diff.AtomOrder
import Got.Lib.ChunkOrder

/-!
# Where the bytes of an atom are

A file is mapped into memory if this is possible, and then atoms point into it. The atoms of a
file that is not mapped are read again each time they are compared, a chunk at a time. So two
atoms are compared in two ways: bytes in memory are compared as a whole, and if one of the two
is not in memory, both are compared chunk by chunk.

What is compared are bytes in either way, and a hash is made of the same bytes. But where white
space is ignored, the chunks of two atoms with the same number can hold different parts of what
counts, and chunks are not put together again. So the result does not depend on where the bytes
are if the atoms are in step (`ChunkOrder.InStep`), and only then: the text that is used up first
has to be the smaller one. Where white space counts, or two atoms have one chunk each, they are.
-/

namespace Got

open OrderedList ChunkOrder

variable {ws : Bool} {data : Bytes} {pos fuel : ℕ}

/-- `struct diff_data` of a whole file. -/
structure DiffRootData where
  file : Bytes
  /-- `data` is not `NULL`: the file is mapped into memory. -/
  mapped : Bool
  /-- `DIFF_FLAG_IGNORE_WHITESPACE` -/
  ignoreWhitespace : Bool

/-- **`diff_atomize_text_by_line`** -/
def diffAtomizeTextByLine (reads : Reads) (d : DiffRootData) : List AtomAt :=
  if d.mapped then atomsFrom 0 (diffDataAtomizeTextLines d.ignoreWhitespace d.file)
  else diffDataAtomizeTextLinesFd reads d.ignoreWhitespace d.file

/-- **An atom and its root.** It points into memory if `mapped`. -/
structure StoredAtom where
  root : DiffRootData
  atom : AtomAt

namespace StoredAtom

/-- `at` is not `NULL`. -/
def mapped (a : StoredAtom) : Bool := a.root.mapped

/-- The same atom with its bytes in memory, or not. -/
def store (mapped : Bool) (a : StoredAtom) : StoredAtom := { a with root := { a.root with mapped } }

/-- The bytes of an atom. -/
def content (a : StoredAtom) : Bytes := (a.root.file.drop a.atom.pos).take a.atom.len

/-- The atom, as it is if it is in memory. -/
def inMemory (a : StoredAtom) : DiffAtom := ⟨a.atom.hash, a.content⟩

end StoredAtom

/-! ## Comparing -/

/-- `chunksz`: how many bytes of a file the comparison reads at a time. -/
def chunksz : ℕ := 8192

/-- `read_at` -/
def readAt (f : Bytes) (atPos len : ℕ) : Except Errno Bytes :=
  let buf := (f.drop atPos).take len
  if buf.length ≠ len then .error .io else .ok buf

/-- The next `n` bytes of an atom of which `remain` are left. -/
def StoredAtom.chunk (a : StoredAtom) (remain n : ℕ) : Except Errno Bytes :=
  let atPos := a.atom.pos + (a.atom.len - remain)
  if a.mapped then .ok ((a.root.file.drop atPos).take n) else readAt a.root.file atPos n

/-- The loop of `diff_atom_cmp`, for atoms of which some bytes remain. -/
def diffAtomCmpLoop (ignoreWhitespace : Bool) (left right : StoredAtom) :
    ℕ → ℕ → ℕ → Except Errno Ordering
  | 0, _, _ => .ok .eq
  | fuel + 1, remainLeft, remainRight =>
    if remainLeft = 0 ∧ remainRight = 0 then .ok .eq
    else if remainRight = 0 then .ok .gt
    else if remainLeft = 0 then .ok .lt
    else do
      let nLeft := min chunksz remainLeft
      let nRight := min chunksz remainRight
      let pLeft ← left.chunk remainLeft nLeft
      let pRight ← right.chunk remainRight nRight
      match bufCmp pLeft pRight ignoreWhitespace with
      | .eq =>
        diffAtomCmpLoop ignoreWhitespace left right fuel (remainLeft - nLeft) (remainRight - nRight)
      | cmp => .ok cmp

/-- **`diff_atom_cmp`** -/
def diffAtomCmpStored (left right : StoredAtom) : Except Errno Ordering :=
  let ignoreWhitespace := left.root.ignoreWhitespace || right.root.ignoreWhitespace
  if left.atom.len = 0 ∧ right.atom.len = 0 then .ok .eq
  else if ¬ignoreWhitespace ∧ right.atom.len = 0 then .ok .gt
  else if ¬ignoreWhitespace ∧ left.atom.len = 0 then .ok .lt
  else if left.mapped ∧ right.mapped then
    .ok (bufCmp left.content right.content ignoreWhitespace)
  else
    diffAtomCmpLoop ignoreWhitespace left right (left.atom.len + right.atom.len + 1)
      left.atom.len right.atom.len

/-- **Atoms are compared by their content**: wherever their bytes are the result is the same, it is
zero exactly if what counts of the content is the same, and then the hashes are. -/
structure ComparesContent (left right : StoredAtom) : Prop where
  stored : ∀ leftMapped rightMapped leftMapped' rightMapped',
    diffAtomCmpStored (left.store leftMapped) (right.store rightMapped)
      = diffAtomCmpStored (left.store leftMapped') (right.store rightMapped')
  zero : ∀ leftMapped rightMapped,
    diffAtomCmpStored (left.store leftMapped) (right.store rightMapped) = .ok .eq
      ↔ left.inMemory.text left.root.ignoreWhitespace
        = right.inMemory.text right.root.ignoreWhitespace
  hash : ∀ leftMapped rightMapped,
    diffAtomCmpStored (left.store leftMapped) (right.store rightMapped) = .ok .eq →
      left.atom.hash = right.atom.hash

/-! ## The text of an atom -/

/-- What counts of bytes, as numbers. -/
def textKey (ws : Bool) (bytes : Bytes) : List ℕ := byteKey (DiffAtom.text ws ⟨0, bytes⟩)

/-- White space is taken out byte by byte, so it does not matter where a text is cut. -/
theorem textKey_append (ws : Bool) (xs ys : Bytes) :
    textKey ws (xs ++ ys) = textKey ws xs ++ textKey ws ys := by
  unfold textKey byteKey DiffAtom.text
  cases ws with
  | false => exact List.map_append
  | true => exact (congrArg _ (List.filter_append ..)).trans List.map_append

/-- In memory the comparison is the one of the keys, whole lines at once. -/
theorem comparesBy_bufCmp (ws : Bool) :
    ComparesBy (fun xs ys => bufCmp xs ys ws) (textKey ws) := by
  have heq : ∀ {xs ys : Bytes}, bufCmp xs ys ws = .eq ↔ textKey ws xs = textKey ws ys := by
    intro xs ys
    rw [textKey, textKey, byteKey_injective.eq_iff]
    cases ws with
    | false => exact bufCmp_eq_iff xs ys
    | true => exact bufCmpIgnoreWhitespace_eq_iff xs ys
  have hgt : ∀ {xs ys : Bytes}, bufCmp xs ys ws = .gt ↔ textKey ws ys < textKey ws xs := by
    intro xs ys
    cases ws with
    | false => exact bufCmp_eq_gt_iff xs ys
    | true => exact bufCmpIgnoreWhitespace_eq_gt_iff xs ys
  refine ⟨fun {xs ys} => ?_, heq, hgt⟩
  rcases lt_trichotomy (textKey ws xs) (textKey ws ys) with h | h | h
  · refine iff_of_true ?_ h
    cases hcmp : bufCmp xs ys ws with
    | lt => rfl
    | eq => exact absurd (heq.mp hcmp) h.ne
    | gt => exact absurd (hgt.mp hcmp) h.asymm
  · refine iff_of_false (fun hlt => ?_) h.not_lt
    rw [heq.mpr h] at hlt
    cases hlt
  · refine iff_of_false (fun hlt => ?_) h.asymm
    rw [hgt.mpr h] at hlt
    cases hlt

/-- **A hash is made of what counts**, where white space is ignored. -/
theorem lineHash_eq_foldl (ws : Bool) (body : Bytes) :
    lineHash ws body = (DiffAtom.text ws ⟨0, body⟩).foldl diffAtomHashUpdate 0 := by
  unfold lineHash DiffAtom.text
  cases ws with
  | false => exact congrArg (fun f => body.foldl f 0) (by funext hash c; simp)
  | true =>
    refine Eq.trans ?_ List.foldl_filter.symm
    exact congrArg (fun f => body.foldl f 0) (by funext hash c; cases isspace c <;> rfl)

/-! ## What atomizers make -/

/-- **An atom as it is made**: a part of the file, with the hash of the line without its end, and
behind the line nothing but its end. -/
structure MadeOf (root : DiffRootData) (atom : AtomAt) : Prop where
  length_content : (StoredAtom.content ⟨root, atom⟩).length = atom.len
  len_pos : 0 < atom.len
  hash : atom.hash
    = lineHash root.ignoreWhitespace ((StoredAtom.content ⟨root, atom⟩).takeWhile inLine)
  ending : ∀ c ∈ (StoredAtom.content ⟨root, atom⟩).dropWhile inLine, inLine c = false

/-- A line with some of the bytes behind it, none of which is a byte of a line. -/
theorem line_take {rest : Bytes} {n : ℕ} (hn : (rest.takeWhile inLine).length ≤ n)
    (hend : ∀ i, (rest.takeWhile inLine).length ≤ i → i < n → ∀ c, rest[i]? = some c →
      inLine c = false) :
    (rest.take n).takeWhile inLine = rest.takeWhile inLine
      ∧ ∀ c ∈ (rest.take n).dropWhile inLine, inLine c = false := by
  have hsplit := @List.takeWhile_append_dropWhile _ inLine rest
  have hin : ∀ c ∈ rest.takeWhile inLine, inLine c = true := fun c hc => List.mem_takeWhile_imp hc
  generalize rest.takeWhile inLine = body at hn hend hsplit hin ⊢
  generalize rest.dropWhile inLine = tail at hsplit
  subst hsplit
  have htail : ∀ c ∈ tail.take (n - body.length), inLine c = false := by
    intro c hc
    obtain ⟨i, hi⟩ := List.mem_iff_getElem?.mp hc
    have hlt : i < n - body.length := by
      have := (List.getElem?_eq_some_iff.mp hi).choose
      rw [List.length_take] at this
      omega
    rw [List.getElem?_take_of_lt hlt] at hi
    refine hend (body.length + i) (Nat.le_add_right _ _) (by omega) c ?_
    rw [List.getElem?_append_right (Nat.le_add_right _ _), Nat.add_sub_cancel_left, hi]
  have htake : (body ++ tail).take n = body ++ tail.take (n - body.length) := by
    rw [List.take_append, List.take_of_length_le hn]
  have hnone : (tail.take (n - body.length)).takeWhile inLine = [] := by
    rw [List.takeWhile_eq_nil_iff]
    intro hpos
    rw [htail _ (List.get_mem _ _)]
    exact Bool.false_ne_true
  rw [htake, List.takeWhile_append_of_pos hin, List.dropWhile_append_of_pos hin, hnone,
    List.append_nil]
  exact ⟨rfl, fun c hc => htail c (List.dropWhile_subset _ hc)⟩

/-- Every atom of the file was cut from the file, and its hash made from the bytes it covers. -/
theorem madeOf_atomizeFdLoop (reads : Reads) {root : DiffRootData} {atom : AtomAt}
    (h : atom ∈ atomizeFdLoop reads root.ignoreWhitespace root.file fuel pos) :
    MadeOf root atom := by
  induction fuel generalizing pos with
  | zero => exact absurd h List.not_mem_nil
  | succ fuel ih =>
    by_cases hlt : pos < root.file.length
    swap
    · rw [atomizeFdLoop, if_neg hlt] at h
      exact absurd h List.not_mem_nil
    rw [atomizeFdLoop_succ reads _ hlt] at h
    rcases List.mem_cons.mp h with rfl | h
    swap
    · exact ih h
    obtain ⟨hle, -, heol⟩ := firstEnd_spec root.file hlt.le
    have hbody : ((root.file.drop pos).takeWhile inLine).length ≤ (root.file.drop pos).length :=
      (List.takeWhile_prefix _).length_le
    generalize hlen : ((root.file.drop pos).takeWhile inLine).length = len at hle heol hbody
    obtain ⟨hge, hgt, hend⟩ := fdLineEnd_bounds reads root.file hle ((root.file[pos + len]?).getD 0)
    -- what is behind the line are the two bytes that end it
    have hbytes : ∀ i, pos + len ≤ i →
        i < fdLineEnd reads root.file (pos + len) ((root.file[pos + len]?).getD 0) →
        root.file[i]? = some 13 ∨ root.file[i]? = some 10 := by
      intro i hi hilt
      unfold fdLineEnd at hilt
      dsimp only at hilt
      by_cases hl : pos + len < root.file.length
      · rw [if_pos hl] at hilt
        split at hilt
        · next hread =>
          rcases Nat.lt_or_ge i (pos + len + 1) with hi' | hi'
          · rw [show i = pos + len by omega]
            exact heol hl
          · rw [show i = pos + len + 1 by omega]
            have hhead := fread_eq_singleton hread.2.2
            rw [List.head?_drop] at hhead
            exact Or.inr hhead
        · rw [show i = pos + len by omega]
          exact heol hl
      · rw [if_neg hl, if_neg (fun hread => hl hread.1)] at hilt
        omega
    generalize fdLineEnd reads root.file _ _ = end_ at hge hgt hend hbytes ⊢
    obtain ⟨hline, hending⟩ := @line_take (root.file.drop pos) (end_ - pos) (by omega) (by
      intro i hi hilt c hc
      rw [List.getElem?_drop] at hc
      rcases hbytes (pos + i) (by omega) (by omega) with heq | heq
      · rw [← Option.some.inj (heq.symm.trans hc)]
        rfl
      · rw [← Option.some.inj (heq.symm.trans hc)]
        rfl)
    have hcontent : StoredAtom.content
        ⟨root, ⟨pos, end_ - pos, lineHash root.ignoreWhitespace
          ((root.file.drop pos).takeWhile inLine)⟩⟩ = (root.file.drop pos).take (end_ - pos) := rfl
    have hpos : pos < end_ := by
      by_cases hl : pos + len < root.file.length
      · exact lt_of_le_of_lt (Nat.le_add_right _ _) (hgt hl)
      · omega
    constructor
    · rw [hcontent, List.length_take, List.length_drop]
      exact Nat.min_eq_left (by omega)
    · exact Nat.sub_pos_of_lt hpos
    · rw [hcontent, hline]
    · rw [hcontent]
      exact hending

/-- The bytes behind a line that is mapped. -/
theorem bytes_behind_line (data : Bytes) {i : ℕ} (hi : (data.takeWhile inLine).length ≤ i)
    (hlt : i < lineEnd data (data.takeWhile inLine).length) :
    data[i]? = some 13 ∨ data[i]? = some 10 := by
  have hfirst := firstEnd_spec data (Nat.zero_le _)
  rw [List.drop_zero, Nat.zero_add] at hfirst
  obtain ⟨-, -, heol⟩ := hfirst
  generalize (data.takeWhile inLine).length = len at hi hlt heol
  unfold lineEnd at hlt
  dsimp only at hlt
  by_cases hl : len < data.length
  · rw [if_pos hl] at hlt
    split at hlt
    · next heq =>
      rcases Nat.lt_or_ge i (len + 1) with hi' | hi'
      · rw [show i = len by omega]
        exact heol hl
      · rw [show i = len + 1 by omega]
        exact Or.inl heq.2.1
    · rw [show i = len by omega]
      exact heol hl
  · rw [if_neg hl] at hlt
    split at hlt
    · next heq => omega
    · omega

/-- An atom is a line with its line ending, and its hash the one of the line alone. -/
theorem line_of_mem_atomizeLoop {a : DiffAtom} (h : a ∈ atomizeLoop ws fuel data) :
    a.hash = lineHash ws (a.data.takeWhile inLine)
      ∧ ∀ c ∈ a.data.dropWhile inLine, inLine c = false := by
  induction fuel generalizing data with
  | zero => exact absurd h List.not_mem_nil
  | succ fuel ih =>
    cases data with
    | nil => exact absurd h List.not_mem_nil
    | cons c rest =>
      rw [atomizeLoop] at h
      swap
      · exact List.cons_ne_nil c rest
      generalize c :: rest = data at h
      rcases List.mem_cons.mp h with rfl | h
      swap
      · exact ih h
      have hn : (data.takeWhile inLine).length ≤ lineEnd data (data.takeWhile inLine).length := by
        unfold lineEnd
        dsimp only
        split <;> split <;> omega
      obtain ⟨hline, hending⟩ := line_take hn fun i hi hlt c hc => by
        rcases bytes_behind_line data hi hlt with heq | heq
        · rw [← Option.some.inj (heq.symm.trans hc)]
          rfl
        · rw [← Option.some.inj (heq.symm.trans hc)]
          rfl
      exact ⟨congrArg (lineHash ws) hline.symm, hending⟩

/-- An atom at its place. -/
theorem exists_of_mem_atomsFrom (pre : Bytes) {atoms : List DiffAtom} {atom : AtomAt}
    (h : atom ∈ atomsFrom pre.length atoms) :
    ∃ a ∈ atoms, atom.len = a.data.length ∧ atom.hash = a.hash
      ∧ ((pre ++ (atoms.map DiffAtom.data).flatten).drop atom.pos).take atom.len = a.data := by
  induction atoms generalizing pre with
  | nil => exact absurd h List.not_mem_nil
  | cons a atoms ih =>
    rw [List.map_cons, List.flatten_cons]
    rcases List.mem_cons.mp h with rfl | h
    · exact ⟨a, List.mem_cons_self, rfl, rfl, by rw [List.drop_left, List.take_left]⟩
    · rw [← List.length_append] at h
      obtain ⟨b, hb, hlen, hhash, hdata⟩ := ih (pre ++ a.data) h
      rw [List.append_assoc] at hdata
      exact ⟨b, List.mem_cons_of_mem _ hb, hlen, hhash, hdata⟩

/-- **Atoms are made in one way**, whether the file is mapped or read. -/
theorem madeOf_diffAtomizeTextByLine {reads : Reads} {root : DiffRootData} {atom : AtomAt}
    (h : atom ∈ diffAtomizeTextByLine reads root) : MadeOf root atom := by
  unfold diffAtomizeTextByLine at h
  split at h
  · obtain ⟨a, ha, hlen, hhash, hdata⟩ := exists_of_mem_atomsFrom [] h
    rw [flatten_atoms, List.nil_append] at hdata
    have hcontent : StoredAtom.content ⟨root, atom⟩ = a.data := hdata
    obtain ⟨hline, hending⟩ := line_of_mem_atomizeLoop ha
    constructor
    · rw [hcontent, hlen]
    · rw [hlen]
      exact List.length_pos_iff.mpr (ne_nil_of_mem_atomizeLoop ha)
    · rw [hcontent, hhash, hline]
    · rw [hcontent]
      exact hending
  · exact madeOf_atomizeFdLoop reads h

/-- **Atoms of which the same counts have the same hash.** -/
theorem MadeOf.hash_eq {left right : DiffRootData} {a b : AtomAt} (ha : MadeOf left a)
    (hb : MadeOf right b) (hws : left.ignoreWhitespace = right.ignoreWhitespace)
    (htext : DiffAtom.text left.ignoreWhitespace (StoredAtom.inMemory ⟨left, a⟩)
      = DiffAtom.text right.ignoreWhitespace (StoredAtom.inMemory ⟨right, b⟩)) :
    a.hash = b.hash := by
  rw [ha.hash, hb.hash, ← hws]
  rw [← hws] at htext
  cases hig : left.ignoreWhitespace with
  | false =>
    rw [hig] at htext
    have hcontent : StoredAtom.content ⟨left, a⟩ = StoredAtom.content ⟨right, b⟩ := htext
    rw [hcontent]
  | true =>
    rw [hig] at htext
    -- the end of a line is white space
    have hline : ∀ {root : DiffRootData} {c : AtomAt}, MadeOf root c →
        DiffAtom.text true ⟨0, (StoredAtom.content ⟨root, c⟩).takeWhile inLine⟩
          = DiffAtom.text true (StoredAtom.inMemory ⟨root, c⟩) := by
      intro root c hc
      show List.filter _ _ = List.filter _ (StoredAtom.content ⟨root, c⟩)
      conv_rhs => rw [← @List.takeWhile_append_dropWhile _ inLine (StoredAtom.content ⟨root, c⟩),
        List.filter_append]
      have hnone : ((StoredAtom.content ⟨root, c⟩).dropWhile inLine).filter (fun c => !isspace c)
          = [] := by
        refine List.filter_eq_nil_iff.mpr fun x hx => ?_
        have hend := hc.ending x hx
        have hx : x = 13 ∨ x = 10 := by
          by_contra hne
          exact Bool.false_ne_true (hend.symm.trans (by simpa [inLine] using hne))
        rcases hx with rfl | rfl <;> exact Bool.false_ne_true
      rw [hnone, List.append_nil]
    rw [lineHash_eq_foldl, lineHash_eq_foldl, hline ha, hline hb, htext]

/-! ## Chunks -/

theorem MadeOf.store {root : DiffRootData} {atom : AtomAt} (h : MadeOf root atom) (mapped : Bool) :
    MadeOf { root with mapped } atom := ⟨h.length_content, h.len_pos, h.hash, h.ending⟩

/-- **The next chunk is read** wherever it is. -/
theorem MadeOf.chunk {root : DiffRootData} {atom : AtomAt} (h : MadeOf root atom) {remain n : ℕ}
    (hremain : remain ≤ atom.len) (hn : n ≤ remain) :
    StoredAtom.chunk ⟨root, atom⟩ remain n
      = .ok (((StoredAtom.content ⟨root, atom⟩).drop (atom.len - remain)).take n) := by
  have hlen := h.length_content
  have hbytes : (root.file.drop (atom.pos + (atom.len - remain))).take n
      = ((StoredAtom.content ⟨root, atom⟩).drop (atom.len - remain)).take n := by
    show _ = (((root.file.drop atom.pos).take atom.len).drop (atom.len - remain)).take n
    rw [List.drop_take, List.take_take, List.drop_drop, Nat.min_eq_left (by omega)]
  unfold StoredAtom.chunk
  dsimp only
  split
  · rw [hbytes]
  · unfold readAt
    dsimp only
    rw [hbytes, if_neg]
    rw [not_not, List.length_take, List.length_drop, hlen]
    exact Nat.min_eq_left (by omega)

theorem take_min_length (size : ℕ) (bytes : Bytes) :
    bytes.take (min size bytes.length) = bytes.take size := by
  rw [← List.take_take, List.take_length]

theorem drop_min_length (size : ℕ) (bytes : Bytes) :
    bytes.drop (min size bytes.length) = bytes.drop size := by
  rcases Nat.le_total size bytes.length with h | h
  · rw [Nat.min_eq_left h]
  · rw [Nat.min_eq_right h, List.drop_length, List.drop_eq_nil_of_le h]

/-- **The loop compares chunks.** -/
theorem diffAtomCmpLoop_eq {left right : DiffRootData} {a b : AtomAt} (ha : MadeOf left a)
    (hb : MadeOf right b) (ws : Bool) (fuel : ℕ) {remainLeft remainRight : ℕ}
    (hleft : remainLeft ≤ a.len) (hright : remainRight ≤ b.len) :
    diffAtomCmpLoop ws ⟨left, a⟩ ⟨right, b⟩ fuel remainLeft remainRight
      = .ok (chunkCompare (fun xs ys => bufCmp xs ys ws) chunksz fuel
          ((StoredAtom.content ⟨left, a⟩).drop (a.len - remainLeft))
          ((StoredAtom.content ⟨right, b⟩).drop (b.len - remainRight))) := by
  induction fuel generalizing remainLeft remainRight with
  | zero => rfl
  | succ fuel ih =>
    have hlen : ∀ {root : DiffRootData} {c : AtomAt} {remain : ℕ}, MadeOf root c → remain ≤ c.len →
        ((StoredAtom.content ⟨root, c⟩).drop (c.len - remain)).length = remain := by
      intro root c remain hc hremain
      rw [List.length_drop, hc.length_content]
      omega
    have hnil : ∀ {root : DiffRootData} {c : AtomAt} {remain : ℕ}, MadeOf root c → remain ≤ c.len →
        ((StoredAtom.content ⟨root, c⟩).drop (c.len - remain) = [] ↔ remain = 0) := by
      intro root c remain hc hremain
      rw [← List.length_eq_zero_iff, hlen hc hremain]
    -- what remains behind a chunk, which may be a short one
    have hrest : ∀ {root : DiffRootData} {c : AtomAt} {remain : ℕ}, MadeOf root c → remain ≤ c.len →
        (StoredAtom.content ⟨root, c⟩).drop (c.len - (remain - min chunksz remain))
          = ((StoredAtom.content ⟨root, c⟩).drop (c.len - remain)).drop chunksz := by
      intro root c remain hc hremain
      have h := drop_min_length chunksz ((StoredAtom.content ⟨root, c⟩).drop (c.len - remain))
      rw [hlen hc hremain, List.drop_drop] at h
      rw [← h]
      have hmin : min chunksz remain ≤ remain := Nat.min_le_right _ _
      generalize min chunksz remain = n at hmin ⊢
      congr 1
      omega
    have htake : ∀ {root : DiffRootData} {c : AtomAt} {remain : ℕ}, MadeOf root c → remain ≤ c.len →
        ((StoredAtom.content ⟨root, c⟩).drop (c.len - remain)).take (min chunksz remain)
          = ((StoredAtom.content ⟨root, c⟩).drop (c.len - remain)).take chunksz := by
      intro root c remain hc hremain
      have h := take_min_length chunksz ((StoredAtom.content ⟨root, c⟩).drop (c.len - remain))
      rwa [hlen hc hremain] at h
    rw [diffAtomCmpLoop, chunkCompare]
    simp only [hnil ha hleft, hnil hb hright]
    split
    · rfl
    split
    · rfl
    split
    · rfl
    rw [ha.chunk hleft (Nat.min_le_right _ _), hb.chunk hright (Nat.min_le_right _ _),
      htake ha hleft,
      htake hb hright]
    show (match bufCmp _ _ ws with | .eq => _ | cmp => _) = _
    cases bufCmp (((StoredAtom.content ⟨left, a⟩).drop (a.len - remainLeft)).take chunksz)
      (((StoredAtom.content ⟨right, b⟩).drop (b.len - remainRight)).take chunksz) ws with
    | lt => rfl
    | gt => rfl
    | eq =>
      rw [← hrest ha hleft, ← hrest hb hright]
      exact ih (le_trans (Nat.sub_le _ _) hleft) (le_trans (Nat.sub_le _ _) hright)

/-! ## Atoms in step -/

/-- **Two atoms of files**, compared wherever their bytes are. -/
theorem diffAtomCmpStored_eq {left right : DiffRootData} {a b : AtomAt} (ha : MadeOf left a)
    (hb : MadeOf right b) (hws : left.ignoreWhitespace = right.ignoreWhitespace)
    (leftMapped rightMapped : Bool) :
    diffAtomCmpStored (StoredAtom.store leftMapped ⟨left, a⟩)
      (StoredAtom.store rightMapped ⟨right, b⟩)
      = .ok (if leftMapped ∧ rightMapped then
          bufCmp (StoredAtom.content ⟨left, a⟩)
            (StoredAtom.content ⟨right, b⟩) left.ignoreWhitespace
        else chunkCompare (fun xs ys => bufCmp xs ys left.ignoreWhitespace) chunksz
          (a.len + b.len + 1)
          (StoredAtom.content ⟨left, a⟩) (StoredAtom.content ⟨right, b⟩)) := by
  have hapos := ha.len_pos.ne'
  have hbpos := hb.len_pos.ne'
  have hloop := diffAtomCmpLoop_eq (ha.store leftMapped)
    (hb.store rightMapped) left.ignoreWhitespace
    (a.len + b.len + 1) le_rfl le_rfl
  rw [Nat.sub_self, List.drop_zero, Nat.sub_self, List.drop_zero] at hloop
  unfold diffAtomCmpStored
  show (if a.len = 0 ∧ b.len = 0 then _ else _) = _
  rw [if_neg fun h => hapos h.1]
  show (if ¬(left.ignoreWhitespace || right.ignoreWhitespace) = true ∧ b.len = 0 then _ else _) = _
  rw [if_neg fun h => hbpos h.2]
  show (if ¬(left.ignoreWhitespace || right.ignoreWhitespace) = true ∧ a.len = 0 then _ else _) = _
  rw [if_neg fun h => hapos h.2]
  show (if leftMapped = true ∧ rightMapped = true then _ else _) = _
  split
  · show Except.ok (bufCmp _ _ (left.ignoreWhitespace || right.ignoreWhitespace)) = _
    rw [← hws, Bool.or_self]
    rfl
  · show diffAtomCmpLoop (left.ignoreWhitespace || right.ignoreWhitespace) _ _ _ _ _ = _
    rw [← hws, Bool.or_self]
    exact hloop

/-- **Atoms that are made of files** are compared by their content exactly if they are in step. -/
theorem MadeOf.compares_iff {left right : DiffRootData} {a b : AtomAt} (ha : MadeOf left a)
    (hb : MadeOf right b) (hws : left.ignoreWhitespace = right.ignoreWhitespace) :
    ComparesContent ⟨left, a⟩ ⟨right, b⟩
      ↔ InStep (textKey left.ignoreWhitespace) chunksz (StoredAtom.content ⟨left, a⟩)
        (StoredAtom.content ⟨right, b⟩) := by
  have hcmp := diffAtomCmpStored_eq ha hb hws
  have hstep := @chunkCompare_eq_iff _ _ _ _ chunksz (StoredAtom.content ⟨left, a⟩)
    (StoredAtom.content ⟨right, b⟩) (a.len + b.len + 1) (textKey_append left.ignoreWhitespace) _
    (comparesBy_bufCmp left.ignoreWhitespace) (by decide)
    (by rw [ha.length_content]; omega) (by rw [hb.length_content]; omega)
  rw [← hstep]
  constructor
  · intro h
    have heq := h.stored false false true true
    rw [hcmp, hcmp, if_neg (by decide), if_pos (by decide)] at heq
    exact Except.ok.inj heq
  · intro h
    rw [h] at hcmp
    simp only [ite_self] at hcmp
    have hzero : bufCmp (StoredAtom.content ⟨left, a⟩) (StoredAtom.content ⟨right, b⟩)
          left.ignoreWhitespace = .eq
        ↔ DiffAtom.text left.ignoreWhitespace (StoredAtom.inMemory ⟨left, a⟩)
          = DiffAtom.text right.ignoreWhitespace (StoredAtom.inMemory ⟨right, b⟩) := by
      rw [← hws, ← byteKey_injective.eq_iff]
      exact (comparesBy_bufCmp left.ignoreWhitespace).eq_iff
    refine ⟨fun _ _ _ _ => by rw [hcmp, hcmp], fun _ _ => ?_, fun _ _ heq => ?_⟩
    · rw [hcmp, ← hzero]
      exact ⟨Except.ok.inj, congrArg _⟩
    · rw [hcmp] at heq
      exact ha.hash_eq hb hws (hzero.mp (Except.ok.inj heq))

/-- **White space that counts** keeps atoms in step. -/
theorem inStep_textKey_false (xs ys : Bytes) : InStep (textKey false) chunksz xs ys :=
  inStep_of_length_eq (textKey_append false) (fun _ => List.length_map _) xs ys

/-- **Any two atoms of two files** are compared by their content, wherever their bytes are, exactly
if white space counts or the atoms are in step without it. -/
theorem comparesContent_iff (leftReads rightReads : Reads) {left right : DiffRootData}
    (hws : left.ignoreWhitespace = right.ignoreWhitespace) {a b : AtomAt}
    (ha : a ∈ diffAtomizeTextByLine leftReads left)
    (hb : b ∈ diffAtomizeTextByLine rightReads right) :
    ComparesContent ⟨left, a⟩ ⟨right, b⟩
      ↔ (left.ignoreWhitespace = true →
        InStep (textKey true) chunksz (StoredAtom.content ⟨left, a⟩)
          (StoredAtom.content ⟨right, b⟩)) := by
  rw [(madeOf_diffAtomizeTextByLine ha).compares_iff (madeOf_diffAtomizeTextByLine hb) hws]
  cases left.ignoreWhitespace with
  | false => exact iff_of_true (inStep_textKey_false _ _) fun h => absurd h Bool.false_ne_true
  | true => exact ⟨fun h _ => h, fun h => h rfl⟩

/-- Reads that fill the buffer. -/
def fullReads : Reads := ⟨fun _ => 512, fun _ => 512⟩

/-- The theorem at work on `a` in memory and an indented `a` in a file. -/
theorem comparesContent_iff_indented :
    ComparesContent ⟨⟨[0x61, 0x0a], true, true⟩, ⟨0, 2, 0x61⟩⟩
        ⟨⟨[0x20, 0x61, 0x0a], false, true⟩, ⟨0, 3, 0x61⟩⟩
      ↔ ((true : Bool) = true →
        InStep (textKey true) chunksz
          (StoredAtom.content ⟨⟨[0x61, 0x0a], true, true⟩, ⟨0, 2, 0x61⟩⟩)
          (StoredAtom.content ⟨⟨[0x20, 0x61, 0x0a], false, true⟩, ⟨0, 3, 0x61⟩⟩)) :=
  @comparesContent_iff fullReads fullReads ⟨[0x61, 0x0a], true, true⟩
    ⟨[0x20, 0x61, 0x0a], false, true⟩ rfl _ _ (by decide) (by decide)

/-- A line without an end is one atom. -/
theorem diffDataAtomizeTextLines_of_inLine (ws : Bool) {data : Bytes} (hne : data ≠ [])
    (hin : ∀ c ∈ data, inLine c = true) :
    diffDataAtomizeTextLines ws data = [⟨lineHash ws data, data⟩] := by
  obtain ⟨c, rest, rfl⟩ := List.exists_cons_of_ne_nil hne
  have hbody : (c :: rest).takeWhile (fun c => c ≠ 13 ∧ c ≠ 10) = c :: rest :=
    List.takeWhile_eq_self_iff.mpr hin
  have hend : lineEnd (c :: rest) (c :: rest).length = (c :: rest).length := by
    unfold lineEnd
    rw [if_neg (lt_irrefl _), if_neg fun h => absurd h.1 (Nat.not_lt.mpr (Nat.le_succ _))]
  rw [diffDataAtomizeTextLines, List.length_cons, atomizeLoop, hbody, hend, List.take_length,
    List.drop_length]
  · cases rest <;> rfl
  · exact List.cons_ne_nil c rest

/-- The white space behind a line. -/
def trailing (n : ℕ) : Bytes := 0x61 :: List.replicate n 0x20

theorem trailing_ne_nil (n : ℕ) : trailing n ≠ [] := List.cons_ne_nil _ _

theorem length_trailing (n : ℕ) : (trailing n).length = n + 1 := by
  rw [trailing, List.length_cons, List.length_replicate]

theorem textKey_trailing (n : ℕ) : textKey true (trailing n) = [0x61] := by
  show byteKey ((trailing n).filter fun c => !isspace c) = [0x61]
  rw [trailing, List.filter_cons_of_pos (by decide), List.filter_replicate_of_neg (by decide)]
  rfl

/-- **White space behind a line** that needs a second chunk. -/
theorem not_comparesContent_trailing :
    ¬ ∀ (leftReads rightReads : Reads) (left right : DiffRootData),
    left.ignoreWhitespace = right.ignoreWhitespace → ∀ a b : AtomAt,
      a ∈ diffAtomizeTextByLine leftReads left → b ∈ diffAtomizeTextByLine rightReads right →
        ComparesContent ⟨left, a⟩ ⟨right, b⟩ := by
  intro h
  have hatom : ∀ n, ⟨0, n + 1, lineHash true (trailing n)⟩
      ∈ diffAtomizeTextByLine fullReads ⟨trailing n, true, true⟩ := by
    intro n
    have hin : ∀ c ∈ trailing n, inLine c = true := by
      intro c hc
      rcases List.mem_cons.mp hc with rfl | hc
      · rfl
      · rw [List.eq_of_mem_replicate hc]
        rfl
    have hone := diffDataAtomizeTextLines_of_inLine true (trailing_ne_nil n) hin
    show _ ∈ atomsFrom 0 (diffDataAtomizeTextLines true (trailing n))
    rw [hone, atomsFrom, length_trailing]
    exact List.mem_cons_self
  have hcontent : ∀ n, StoredAtom.content
      ⟨⟨trailing n, true, true⟩, ⟨0, n + 1, lineHash true (trailing n)⟩⟩ = trailing n :=
    fun n => List.take_of_length_le (length_trailing n).le
  obtain ⟨n, hn⟩ : ∃ n, chunksz = n + 1 := ⟨8191, rfl⟩
  have hstep := ((madeOf_diffAtomizeTextByLine (hatom 0)).compares_iff
    (madeOf_diffAtomizeTextByLine (hatom (n + 1))) rfl).mp
    (h fullReads fullReads ⟨trailing 0, true, true⟩ ⟨trailing (n + 1), true, true⟩ rfl _ _ (hatom 0)
      (hatom (n + 1)))
  rw [hcontent, hcontent, hn] at hstep
  -- the chunks agree, and there is a second one on one side only
  have hagree : Agree (textKey true) (n + 1) 1 (trailing 0) (trailing (n + 1)) := by
    intro j hj
    obtain rfl : j = 0 := by omega
    have hleft : (trailing 0).take (n + 1) = trailing 0 :=
      List.take_of_length_le (Nat.succ_le_succ (Nat.zero_le n))
    have hright : (trailing (n + 1)).take (n + 1) = trailing n := by
      rw [trailing, List.take_succ_cons, List.take_replicate, Nat.min_eq_left (Nat.le_succ n)]
      rfl
    rw [Nat.zero_mul, List.drop_zero, List.drop_zero, hleft, hright, textKey_trailing,
      textKey_trailing]
  have hused : UsedUp (textKey true) (n + 1) ((trailing 0).drop (1 * (n + 1)))
      ((trailing (n + 1)).drop (1 * (n + 1))) := by
    rw [Nat.one_mul]
    refine Or.inl ⟨List.drop_eq_nil_of_le (Nat.succ_le_succ (Nat.zero_le n)), fun hnil => ?_⟩
    have hlen := congrArg List.length hnil
    rw [List.length_drop, length_trailing, List.length_nil] at hlen
    omega
  have hlt := (hstep 1 hagree).1 hused
  rw [textKey_trailing, textKey_trailing] at hlt
  exact lt_irrefl _ hlt

end Got

import Got.Pack.DeltaChain

/-!
# Reading at the end of a mapped pack file

A pack file which is mapped into memory is read without a system call, so nothing but
the code itself stops at its end. Three functions read fields of variable length or
ids: the header of an object, the distance of an offset delta to its base, and the id
that names the base of another delta. Each of them checks that the *first* byte is
inside, and none checks the others, while a file that is read comes up short.

What happens at the end is then a question of what stands there: `CutOff` is a field
whose bytes all say that one more follows, up to the end of the file, and
`CutOffId` is an id of which only a part is there. These, and nothing else, are read
beyond the mapping (`staysWithinMap_iff`).
-/

namespace Got

/-- A pack file that is mapped into memory. -/
def mappedPack (file : Bytes) : Pack where
  file := file
  mapped := true

/-- What `resolve_ref_delta` reads of the pack file itself: the id of the base. -/
def readBaseId (pack : Pack) (h : ObjHdr) : Except GotErr Sha1 :=
  if pack.filesize ≤ h.offset + h.tslen then .error .packOffset
  else pack.idAt (h.offset + h.tslen)

/-- The header of the object with an id, which must be in the same pack file. -/
def baseOfId (packidx : Packidx) (pack : Pack) (id : Sha1) : Except GotErr ObjHdr := do
  let some idx ← gotPackidxGetObjectIdx packidx id | throw .noObj
  let some baseOffset ← getObjectOffset packidx idx | throw .badPackidx
  if pack.filesize ≤ baseOffset then throw .packOffset
  gotPackParseObjectTypeAndSize pack baseOffset

/-- **`resolve_ref_delta`**: the id is read, the base is looked up, and the chain is resolved from
there on. -/
theorem resolveRefDelta_eq (deltas : DeltaChain) (packidx : Packidx) (pack : Pack) (h : ObjHdr)
    (recursion : UInt32) : resolveRefDelta deltas packidx pack h recursion =
      match readBaseId pack h with
      | .error e => (deltas, .error e)
      | .ok id =>
        match baseOfId packidx pack id with
        | .error e => (addDelta deltas h (h.offset + h.tslen + SHA1_DIGEST_LENGTH), .error e)
        | .ok base => gotPackResolveDeltaChain
            (addDelta deltas h (h.offset + h.tslen + SHA1_DIGEST_LENGTH)) packidx pack base
            (recursion - 1) := by
  have hbase : refDeltaBase packidx pack deltas h = match readBaseId pack h with
      | .error e => (deltas, .error e)
      | .ok id => (addDelta deltas h (h.offset + h.tslen + SHA1_DIGEST_LENGTH),
          baseOfId packidx pack id) := by
    unfold refDeltaBase readBaseId
    split
    · rfl
    · rfl
  rw [resolveRefDelta, hbase]
  cases readBaseId pack h with
  | error e => rfl
  | ok id =>
    dsimp only
    cases baseOfId packidx pack id <;> rfl

/-! ## What is cut off -/

/-- **A field is cut off**: it begins in the file, every byte that is left has the bit which says
that one more follows, and there are fewer than `n` of them. -/
def CutOff (file : Bytes) (n pos : ℕ) : Prop :=
  pos < file.length ∧ file.length < pos + n ∧ ∀ b ∈ file.drop pos, b &&& 0x80 ≠ 0

/-- **An id is cut off**: it begins in the file, and does not end there. -/
def CutOffId (file : Bytes) (pos : ℕ) : Prop :=
  pos < file.length ∧ file.length < pos + SHA1_DIGEST_LENGTH

variable {file : Bytes}

theorem byteAt_of_lt {pos : ℕ} (h : pos < file.length) :
    (mappedPack file).byteAt pos = .ok file[pos] := by
  rw [Pack.byteAt, mappedPack, List.getElem?_eq_getElem h]

theorem byteAt_of_ge {pos : ℕ} (h : file.length ≤ pos) :
    (mappedPack file).byteAt pos = .error .outOfMap := by
  rw [Pack.byteAt, mappedPack, List.getElem?_eq_none h]
  rfl

/-- One byte of a field, and the rest of it. -/
theorem forall_mem_drop_iff {p : UInt8 → Prop} {pos : ℕ} (h : pos < file.length) :
    (∀ b ∈ file.drop pos, p b) ↔ p file[pos] ∧ ∀ b ∈ file.drop (pos + 1), p b := by
  rw [List.drop_eq_getElem_cons h, List.forall_mem_cons]

/-- **The loop over a header** leaves the mapping if what is left of it is cut off. -/
theorem parseTypeAndSizeFrom_eq_outOfMap_iff {offset n i : ℕ} (hi : offset + i ≤ file.length)
    (t : UInt8) (s : UInt64) :
    parseTypeAndSizeFrom (mappedPack file) offset n i t s = .error .outOfMap
      ↔ file.length < offset + i + n ∧ ∀ b ∈ file.drop (offset + i), b &&& 0x80 ≠ 0 := by
  induction n generalizing i t s with
  | zero => exact iff_of_false (fun h => nomatch h) fun h => absurd h.1 (Nat.not_lt.mpr hi)
  | succ n ih =>
    rcases Nat.lt_or_ge (offset + i) file.length with hlt | hge
    · rw [parseTypeAndSizeFrom, byteAt_of_lt hlt, ok_bind, forall_mem_drop_iff hlt]
      dsimp only
      split
      · next hmore =>
        rw [ih hlt, and_iff_right (show file[offset + i] &&& 0x80 ≠ 0 from hmore)]
        exact and_congr_left' (by omega)
      · next hlast => exact iff_of_false (fun h => nomatch h) fun h => hlast h.2.1
    · rw [parseTypeAndSizeFrom, byteAt_of_ge hge, List.drop_eq_nil_of_le hge]
      exact iff_of_true rfl ⟨by omega, fun b hb => absurd hb List.not_mem_nil⟩

/-- The header is read past the end exactly when the file cuts it off. -/
theorem gotPackParseObjectTypeAndSize_eq_outOfMap_iff (offset : ℕ) :
    gotPackParseObjectTypeAndSize (mappedPack file) offset = .error .outOfMap
      ↔ CutOff file 10 offset := by
  unfold gotPackParseObjectTypeAndSize
  split
  · next hge => exact iff_of_false (fun h => nomatch h) fun h => absurd h.1 (Nat.not_lt.mpr hge)
  · next hlt =>
    have hlt : offset < file.length := Nat.not_le.mp hlt
    rw [parseTypeAndSizeFrom_eq_outOfMap_iff (Nat.le_of_lt hlt), CutOff, and_iff_right hlt]
    rfl

/-- **The loop over an offset** leaves the mapping if what is left of it is cut off. -/
theorem parseNegativeOffsetFrom_eq_outOfMap_iff {deltaOffset n i : ℕ}
    (hd : deltaOffset < file.length)
    (hi : deltaOffset + i ≤ file.length) (o : UInt64) :
    parseNegativeOffsetFrom (mappedPack file) deltaOffset n i o = .error .outOfMap
      ↔ file.length < deltaOffset + i + n ∧ ∀ b ∈ file.drop (deltaOffset + i), b &&& 0x80 ≠ 0 := by
  induction n generalizing i o with
  | zero => exact iff_of_false (fun h => by cases h) fun h => absurd h.1 (Nat.not_lt.mpr hi)
  | succ n ih =>
    have hstart : ¬((mappedPack file).mapped ∧ (mappedPack file).filesize ≤ deltaOffset) :=
      fun h => absurd hd (Nat.not_lt.mpr h.2)
    rw [parseNegativeOffsetFrom, if_neg hstart]
    rcases Nat.lt_or_ge (deltaOffset + i) file.length with hlt | hge
    · rw [byteAt_of_lt hlt, forall_mem_drop_iff hlt]
      simp only [ok_bind]
      split
      · next hmore =>
        rw [ih hlt, and_iff_right (show file[deltaOffset + i] &&& 0x80 ≠ 0 from hmore)]
        exact and_congr_left' (by omega)
      · next hlast => exact iff_of_false (fun h => by cases h) fun h => hlast h.2.1
    · rw [byteAt_of_ge hge, List.drop_eq_nil_of_le hge]
      exact iff_of_true rfl ⟨by omega, fun b hb => absurd hb List.not_mem_nil⟩

/-- The offset of a base is read past the end exactly when the file cuts it off. -/
theorem parseNegativeOffset_eq_outOfMap_iff (deltaOffset : ℕ) :
    parseNegativeOffset (mappedPack file) deltaOffset = .error .outOfMap
      ↔ CutOff file 9 deltaOffset := by
  unfold parseNegativeOffset
  rcases Nat.lt_or_ge deltaOffset file.length with hlt | hge
  · rw [parseNegativeOffsetFrom_eq_outOfMap_iff hlt (Nat.le_of_lt hlt), CutOff, and_iff_right hlt]
    rfl
  · rw [parseNegativeOffsetFrom, if_pos ⟨rfl, hge⟩]
    exact iff_of_false (fun h => by cases h) fun h => absurd h.1 (Nat.not_lt.mpr hge)

/-- The id of a base is read past the end exactly when the file cuts it off. -/
theorem readBaseId_eq_outOfMap_iff (h : ObjHdr) :
    readBaseId (mappedPack file) h = .error .outOfMap ↔ CutOffId file (h.offset + h.tslen) := by
  unfold readBaseId
  split
  · next hge => exact iff_of_false (fun h => nomatch h) fun h => absurd h.1 (Nat.not_lt.mpr hge)
  · next hlt =>
    have hlt : h.offset + h.tslen < file.length := Nat.not_le.mp hlt
    unfold Pack.idAt
    dsimp only
    have hlen : ((file.drop (h.offset + h.tslen)).take SHA1_DIGEST_LENGTH).length
        = min SHA1_DIGEST_LENGTH (file.length - (h.offset + h.tslen)) := by
      rw [List.length_take, List.length_drop]
    split
    · next hfull =>
      refine iff_of_false (fun h => nomatch h) fun hcut => ?_
      have hmin := hlen.symm.trans hfull
      have hend := hcut.2
      omega
    · next hpart =>
      refine iff_of_true rfl ⟨hlt, ?_⟩
      by_contra hge
      exact hpart (hlen.trans (by omega))

/-! ## Staying within the mapping -/

/-- **The mapping is not left**, by the functions that read a header, an offset and the id of a
base, at a position each. -/
structure StaysWithinMap (file : Bytes) (offset deltaOffset : ℕ) (h : ObjHdr) : Prop where
  hdr : gotPackParseObjectTypeAndSize (mappedPack file) offset ≠ .error .outOfMap
  offset : parseNegativeOffset (mappedPack file) deltaOffset ≠ .error .outOfMap
  baseId : readBaseId (mappedPack file) h ≠ .error .outOfMap

/-- **The mapping is left if and only if a field is cut off**: the size of an object, the offset of
its base, or the id of its base. What is compared with the end of the mapping is where a field
begins, and not the bytes that are read after the first one, of which there are as many as have a
continuation bit in front. -/
theorem staysWithinMap_iff (file : Bytes) (offset deltaOffset : ℕ) (h : ObjHdr) :
    StaysWithinMap file offset deltaOffset h
      ↔ ¬CutOff file 10 offset ∧ ¬CutOff file 9 deltaOffset
        ∧ ¬CutOffId file (h.offset + h.tslen) := by
  rw [← gotPackParseObjectTypeAndSize_eq_outOfMap_iff, ← parseNegativeOffset_eq_outOfMap_iff,
    ← readBaseId_eq_outOfMap_iff]
  exact ⟨fun hs => ⟨hs.hdr, hs.offset, hs.baseId⟩, fun ⟨h1, h2, h3⟩ => ⟨h1, h2, h3⟩⟩

/-! A pack file that ends within a header: behind the twelve bytes of the file header, the first
byte of a blob says that one more follows. Whatever is read at that byte leaves the mapping. -/

/-- A pack that ends inside the header of its only object. -/
def cutOffFile : Bytes := [0x50, 0x41, 0x43, 0x4b, 0, 0, 0, 2, 0, 0, 0, 1, 0xb0]

/-- All three parsers read past the end of this file. -/
theorem not_staysWithinMap_cutOffFile :
    gotPackParseObjectTypeAndSize (mappedPack cutOffFile) 12 = .error .outOfMap
      ∧ parseNegativeOffset (mappedPack cutOffFile) 12 = .error .outOfMap
      ∧ resolveRefDelta [] ⟨[], [], [], none, 0⟩ (mappedPack cutOffFile) ⟨11, 1, 7, 0⟩ 500
        = ([], .error .outOfMap)
      ∧ ¬StaysWithinMap cutOffFile 12 12 ⟨11, 1, 7, 0⟩ := by
  have hid : readBaseId (mappedPack cutOffFile) ⟨11, 1, 7, 0⟩ = .error .outOfMap := by decide
  refine ⟨by decide, by decide, ?_, fun h => h.baseId hid⟩
  rw [resolveRefDelta_eq, hid]

end Got

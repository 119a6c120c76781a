import Got.IndexPack.Passes
import Got.Pack.PackidxFile

/-!
# Writing the pack index

When the ids of all objects are known, `index_pack` makes the index once more
and writes it, table by table. The file is hashed while it is written, and its
digest is the last thing in it.

The lengths of the tables are computed as an `int`. For the ids the product
itself is one, so it overflows where there are too many objects, and then what
is written is not an index (`roundTrips_iff`). Up to there, reading the file
gives the index back, and every object is found at its offset.
-/

namespace Got

open Records SortedTable

/-! ## The end of `index_pack` -/

/-- Write `len` bytes of a buffer to the file. -/
def hwrite (out buf : Bytes) (len : ℤ) : Except GotErr Bytes :=
  if len < 0 ∨ (buf.length : ℤ) < len then .error .outOfMap
  else .ok (out ++ buf.take len.toNat)

/-- Write the table of large offsets, if there are any. -/
def hwriteLarge (out : Bytes) (packidx : Packidx) : Except GotErr Bytes :=
  if packidx.nlargeobj > 0 then
    hwrite out ((packidx.largeOffsets.getD []).flatMap htobe64)
      (toInt32 (packidx.nlargeobj * 8 : ℕ))
  else .ok out

/-- **Write the file of an index** for `nobj` objects. -/
def writePackidx (sha1 : Bytes → Sha1) (packSha1 : Sha1) (nobj : ℕ) (packidx : Packidx)
    (crc32 : List UInt32) : Except GotErr Bytes := do
  let out ← hwrite [] (htobe32 GOT_PACKIDX_V2_MAGIC ++ htobe32 GOT_PACKIDX_VERSION) 8
  let out ← hwrite out (packidx.fanoutTable.flatMap htobe32)
    (toInt32 (GOT_PACKIDX_V2_FANOUT_TABLE_ITEMS * 4 : ℕ))
  let out ← hwrite out (packidx.sortedIds.flatMap Subtype.val)
    (toInt32 (nobj * SHA1_DIGEST_LENGTH : ℕ))
  let out ← hwrite out (crc32.flatMap htobe32) (toInt32 (nobj * 4 : ℕ))
  let out ← hwrite out (packidx.offsets.flatMap htobe32) (toInt32 (nobj * 4 : ℕ))
  let out ← hwriteLarge out packidx
  let out ← hwrite out packSha1.val SHA1_DIGEST_LENGTH
  return out ++ (sha1 out).val

section Writer

variable (plat : Platform) (crc : IndexedObject → UInt32) (packSha1 : Sha1)

/-- **The end of `index_pack`**, given the objects of a pack file, with the
checksum of each in its packed form, and the digest of the pack file. -/
def finishIndexPack (pack : Pack) (objects : List IndexedObject) : Except GotErr Bytes :=
  let (sorted, packidx) := makePackidx plat pack objects
  writePackidx plat.sha1 packSha1 objects.length packidx
    ((sorted.filter (·.valid)).map crc)

/-- **Objects of a pack file, ready to be written**: there are some, as many as
an `int` can count, all ids are known and no two are the same. -/
structure PackObjects where
  pack : Pack
  objects : List IndexedObject
  ne_nil : objects ≠ []
  length_lt : objects.length < 2 ^ 31
  valid : ∀ o ∈ objects, o.valid = true
  nodup : (objects.map (fun o => o.id)).Nodup
  offset_lt : ∀ o ∈ objects, o.offset < pack.filesize
  filesize_lt : pack.filesize < 2 ^ 63

/-- **Reading undoes writing**: the file is accepted, all objects are found in
it with their offsets, and no others. -/
def RoundTrips (w : PackObjects) : Prop :=
  ∃ file p, finishIndexPack plat crc packSha1 w.pack w.objects = .ok file
    ∧ gotPackidxInitHdr plat.sha1 true file = .ok p
    ∧ (∀ o ∈ w.objects, ∃ i, gotPackidxGetObjectIdx p.toPackidx o.id = .ok (some i)
        ∧ getObjectOffset p.toPackidx i = .ok (some o.offset))
    ∧ ∀ id, (∀ o ∈ w.objects, o.id ≠ id) → gotPackidxGetObjectIdx p.toPackidx id = .ok none

/-! ## Lengths -/

/-- A write hands on as many bytes as it was asked to, and fails for a negative length. -/
theorem hwrite_eq_ok_iff {out buf out' : Bytes} {len : ℤ} :
    hwrite out buf len = .ok out' ↔
      0 ≤ len ∧ len ≤ buf.length ∧ out' = out ++ buf.take len.toNat := by
  unfold hwrite
  split
  · next h => simp; omega
  · next h =>
    simp only [Except.ok.injEq, eq_comm (a := out')]
    constructor
    · exact fun heq => ⟨by omega, by omega, heq⟩
    · exact fun ⟨_, _, heq⟩ => heq

/-- A whole buffer is written if its length is an `int`. -/
theorem hwrite_of_lt {out buf : Bytes} {n : ℕ} (hlen : buf.length = n) (hn : n < 2 ^ 31) :
    hwrite out buf (toInt32 n) = .ok (out ++ buf) := by
  rw [hwrite_eq_ok_iff, toInt32_of_lt (by omega) (by omega), hlen]
  exact ⟨by omega, le_refl _, by rw [Int.toNat_natCast, List.take_of_length_le hlen.le]⟩

/-- A length that is not negative as an `int` is one that is right or too small
by a multiple of `2 ^ 32`. -/
theorem toInt32_natCast_le {n : ℕ} (h : 0 ≤ toInt32 n) :
    toInt32 n < 2 ^ 31 ∧ (toInt32 n = n ∨ toInt32 n + 2 ^ 32 ≤ n) := by
  have hdef : toInt32 n = if (n : ℤ) % 4294967296 < (4294967296 + 1) / 2 then (n : ℤ) % 4294967296
      else (n : ℤ) % 4294967296 - 4294967296 := rfl
  rw [hdef] at h ⊢
  split at h <;> rename_i hlt
  · rw [if_pos hlt]
    omega
  · omega

/-! ## The large offsets -/

/-- There are as many large offsets as offsets that refer to one. -/
structure LargeInOrder (packidx : Packidx) : Prop where
  count : packidx.offsets.countP (fun o => o &&& GOT_PACKIDX_OFFSET_VAL_IS_LARGE_IDX ≠ 0)
    = packidx.nlargeobj
  length : (packidx.largeOffsets.getD []).length = packidx.nlargeobj

/-- An empty index has no large offsets. -/
theorem largeInOrder_emptyPackidx (pack : Pack) : LargeInOrder (emptyPackidx pack) where
  count := rfl
  length := by
    unfold emptyPackidx
    dsimp only
    split <;> rfl

/-- Adding an object that has room keeps the large offsets in order. -/
theorem LargeInOrder.add {packidx : Packidx} (h : LargeInOrder packidx) (idx : ℕ)
    {obj : IndexedObject} (hroom : HasRoom packidx obj.offset)
    (hlt : packidx.nlargeobj < 2 ^ 31) : LargeInOrder (addIndexedObject packidx idx obj) := by
  by_cases hs : obj.offset < GOT_PACKIDX_OFFSET_VAL_IS_LARGE_IDX.toNat
  · have hoff : obj.offset.toUInt32.toNat = obj.offset :=
      Nat.mod_eq_of_lt (Nat.lt_trans hs (by decide))
    have hword : obj.offset.toUInt32 &&& GOT_PACKIDX_OFFSET_VAL_IS_LARGE_IDX = 0 := by
      by_contra hne
      rw [← Ne, and_large_ne_zero_iff, hoff] at hne
      exact absurd hs (Nat.not_lt.mpr hne)
    refine ⟨?_, ?_⟩
    · simp only [addIndexedObject, if_pos hs]
      rw [(perm_insertAt _ idx _).countP_eq, List.countP_cons, h.count, hword]
      simp
    · simp only [addIndexedObject, if_pos hs]
      exact h.length
  · obtain ⟨large, hl⟩ := Option.ne_none_iff_exists'.mp (hroom.2 (Nat.not_lt.mp hs))
    have hword : (packidx.nlargeobj.toUInt32 ||| GOT_PACKIDX_OFFSET_VAL_IS_LARGE_IDX)
        &&& GOT_PACKIDX_OFFSET_VAL_IS_LARGE_IDX ≠ 0 := by
      rw [and_large_ne_zero_iff, toNat_or_large hlt]
      exact Nat.le_add_left _ _
    have hlen := h.length
    rw [hl] at hlen
    refine ⟨?_, ?_⟩
    · simp only [addIndexedObject, if_neg hs]
      rw [(perm_insertAt _ idx _).countP_eq, List.countP_cons, h.count]
      simp [hword]
    · simp only [addIndexedObject, if_neg hs, hl]
      simpa using hlen

/-- Large offsets stay in the order they were added while the valid objects are added. -/
theorem LargeInOrder.addValidObjects {objects : List IndexedObject} {packidx : Packidx}
    {idx : ℕ} (h : LargeInOrder packidx) (hroom : ∀ o ∈ objects, HasRoom packidx o.offset)
    (hlt : packidx.nlargeobj + objects.length ≤ 2 ^ 31) :
    LargeInOrder (addValidObjects idx objects packidx) := by
  induction objects generalizing packidx idx with
  | nil => exact h
  | cons obj objects ih =>
    rw [List.length_cons] at hlt
    have hroom' := fun o ho => hroom o (List.mem_cons_of_mem obj ho)
    rw [Got.addValidObjects]
    split
    · have hle : (addIndexedObject packidx idx obj).nlargeobj ≤ packidx.nlargeobj + 1 := by
        unfold addIndexedObject
        dsimp only
        split <;> omega
      exact ih (h.add idx (hroom obj List.mem_cons_self) (by omega))
        (fun o ho => hasRoom_addIndexedObject (hroom' o ho) idx obj) (by omega)
    · exact ih h hroom' (by omega)

/-! ## The tables that are written -/

variable {plat crc packSha1} {w : PackObjects}

/-- The entries of the index, in the order in which they are written. -/
def PackObjects.entries (plat : Platform) (w : PackObjects) : List IdxEntry :=
  (plat.qsort w.objects).map IndexedObject.entry

/-- The index that is written. -/
def PackObjects.packidx (plat : Platform) (w : PackObjects) : Packidx :=
  addValidObjects 0 (plat.qsort w.objects) (emptyPackidx w.pack)

theorem filter_qsort_valid : (plat.qsort w.objects).filter (·.valid) = plat.qsort w.objects :=
  List.filter_eq_self.mpr fun o ho => w.valid o ((plat.qsort_perm w.objects).mem_iff.mp ho)

theorem length_entries : (w.entries plat).length = w.objects.length := by
  rw [PackObjects.entries, List.length_map, (plat.qsort_perm w.objects).length_eq]

theorem hasRoom_packObjects {o : IndexedObject} (ho : o ∈ plat.qsort w.objects) :
    HasRoom (emptyPackidx w.pack) o.offset :=
  hasRoom_emptyPackidx_of_lt (w.offset_lt o ((plat.qsort_perm w.objects).mem_iff.mp ho))
    w.filesize_lt

/-- **The index that is written lists the objects.** -/
theorem lists_packidx : Lists (w.packidx plat) (w.entries plat) := by
  have hsorted : SortedBy IdxEntry.key
      ([] ++ ((plat.qsort w.objects).filter (·.valid)).map IndexedObject.entry) := by
    rw [List.nil_append, filter_qsort_valid, SortedBy, List.pairwise_map]
    exact plat.qsort_sorted w.objects
  have hgrows := grows_addValidObjects (grows_emptyPackidx w.pack)
    (fun o => hasRoom_packObjects) hsorted
    (by rw [(plat.qsort_perm w.objects).length_eq, List.length_nil]; have := w.length_lt; omega)
  rw [List.nil_append, filter_qsort_valid] at hgrows
  exact hgrows.toLists

theorem largeInOrder_packidx : LargeInOrder (w.packidx plat) := by
  refine (largeInOrder_emptyPackidx w.pack).addValidObjects (fun o => hasRoom_packObjects) ?_
  rw [(plat.qsort_perm w.objects).length_eq]
  have := w.length_lt
  exact (Nat.zero_add _).trans_le this.le

variable (plat crc packSha1 w) in
/-- The tables that are written, without the digest that follows them. -/
def PackObjects.tables : PackidxHdr where
  fanoutTable := (w.packidx plat).fanoutTable
  sortedIds := (w.packidx plat).sortedIds
  offsets := (w.packidx plat).offsets
  largeOffsets := if (w.packidx plat).nlargeobj = 0 then none else (w.packidx plat).largeOffsets
  nlargeobj := (w.packidx plat).nlargeobj
  crc32 := (plat.qsort w.objects).map crc
  packfileSha1 := packSha1
  packidxSha1 := unknownId

variable (plat crc packSha1 w) in
/-- **The index that is read back.** -/
def PackObjects.hdr : PackidxHdr :=
  { w.tables plat crc packSha1 with packidxSha1 := plat.sha1 (w.tables plat crc packSha1).body }

/-- An entry of the fan-out table of an index that lists entries. -/
theorem Lists.getD_fanout {packidx : Packidx} {es : List IdxEntry} (h : Lists packidx es) {b : ℕ}
    (hb : b ≤ 0xff) : (packidx.fanoutTable.getD b 0).toNat = es.countP (IdxEntry.upTo b) := by
  have hlt : b < packidx.fanoutTable.length := by
    rw [h.fanout_length]
    omega
  rw [List.getD_eq_getElem?_getD, List.getElem?_eq_getElem hlt]
  exact h.fanout b hlt

theorem Lists.totobj_eq {packidx : Packidx} {es : List IdxEntry} (h : Lists packidx es) :
    totobj packidx.fanoutTable = es.length :=
  (h.getD_fanout (le_refl 0xff)).trans (countP_upTo_last es)

/-- A fan-out table that counts entries is in order. -/
theorem Lists.verifyFanoutTable {packidx : Packidx} {es : List IdxEntry} (h : Lists packidx es) :
    verifyFanoutTable packidx.fanoutTable = .ok () := by
  refine verifyFanoutTable_eq_ok_iff.mpr fun i hi => ?_
  rw [UInt32.le_iff_toNat_le, h.getD_fanout (by omega), h.getD_fanout (by omega)]
  refine List.countP_mono_left fun e _ hu => ?_
  simp only [IdxEntry.upTo, decide_eq_true_eq] at hu ⊢
  omega

/-- The large offsets of the tables are those of the index, an absent table being empty. -/
theorem getD_largeOffsets :
    (w.tables plat crc packSha1).largeOffsets.getD [] = (w.packidx plat).largeOffsets.getD [] := by
  show (if (w.packidx plat).nlargeobj = 0 then none else (w.packidx plat).largeOffsets).getD [] = _
  have hlen : ((w.packidx plat).largeOffsets.getD []).length = (w.packidx plat).nlargeobj :=
    largeInOrder_packidx.length
  split
  · next h =>
    rw [h] at hlen
    exact (List.length_eq_zero_iff.mp hlen).symm
  · rfl

theorem totobj_packidx : totobj (w.packidx plat).fanoutTable = w.objects.length :=
  lists_packidx.totobj_eq.trans length_entries

theorem length_offsets_packidx : (w.packidx plat).offsets.length = w.objects.length :=
  lists_packidx.offsets.length_eq.trans length_entries

/-- **What is written passes the checks of the reader.** -/
theorem isPackidx_hdr : IsPackidx (w.hdr plat crc packSha1) where
  fanout_length := lists_packidx.fanout_length
  fanout_verified := lists_packidx.verifyFanoutTable
  totobj_ne_zero := by
    show totobj (w.packidx plat).fanoutTable ≠ 0
    rw [totobj_packidx]
    exact fun h => w.ne_nil (List.length_eq_zero_iff.mp h)
  ids_length := by
    show (w.packidx plat).sortedIds.length = totobj (w.packidx plat).fanoutTable
    rw [lists_packidx.ids, List.length_map, lists_packidx.totobj_eq]
  crc32_length := by
    show ((plat.qsort w.objects).map crc).length = totobj (w.packidx plat).fanoutTable
    rw [totobj_packidx, List.length_map, (plat.qsort_perm w.objects).length_eq]
  offsets_length := by
    show (w.packidx plat).offsets.length = totobj (w.packidx plat).fanoutTable
    rw [totobj_packidx, length_offsets_packidx]
  nlargeobj_eq := by
    show (w.packidx plat).nlargeobj = countLarge (w.packidx plat).offsets
    rw [countLarge, List.take_of_length_le, largeInOrder_packidx.count]
    rw [length_offsets_packidx]
    exact w.length_lt.le
  large_length := by
    show ((w.tables plat crc packSha1).largeOffsets.getD []).length = (w.packidx plat).nlargeobj
    rw [getD_largeOffsets, largeInOrder_packidx.length]
  large_none := by
    show (if (w.packidx plat).nlargeobj = 0 then none else (w.packidx plat).largeOffsets) = none
      ↔ (w.packidx plat).nlargeobj = 0
    have hlen : ((w.packidx plat).largeOffsets.getD []).length = (w.packidx plat).nlargeobj :=
      largeInOrder_packidx.length
    split
    · next h => simp [h]
    · next h =>
      refine iff_of_false (fun hnone => h ?_) h
      rw [hnone] at hlen
      exact hlen.symm

/-- The index that is read back lists the objects. -/
theorem lists_hdr : Lists (w.hdr plat crc packSha1).toPackidx (w.entries plat) where
  sorted := lists_packidx.sorted
  ids := lists_packidx.ids
  offsets := by
    refine lists_packidx.offsets.imp fun o e he => ?_
    by_cases h : (w.packidx plat).nlargeobj = 0
    · -- no offset refers to the table of large ones
      unfold offsetOf at he ⊢
      split at he
      · next hlarge =>
        rw [h] at he
        cases hl : (w.packidx plat).largeOffsets <;> rw [hl] at he <;> simp at he
      · next hsmall => rw [if_neg hsmall]; exact he
    · have hl : (w.hdr plat crc packSha1).largeOffsets = (w.packidx plat).largeOffsets := if_neg h
      unfold offsetOf at he ⊢
      rw [hl]
      exact he
  fanout_length := lists_packidx.fanout_length
  fanout := lists_packidx.fanout
  length_lt := lists_packidx.length_lt

/-! ## The round trip -/

theorem finishIndexPack_eq : finishIndexPack plat crc packSha1 w.pack w.objects
    = writePackidx plat.sha1 packSha1 w.objects.length (w.packidx plat)
        ((plat.qsort w.objects).map crc) := by
  unfold finishIndexPack makePackidx
  dsimp only
  rw [filter_qsort_valid]
  rfl

theorem nlargeobj_packidx_le : (w.packidx plat).nlargeobj ≤ w.objects.length := by
  rw [← largeInOrder_packidx.count, ← length_offsets_packidx]
  exact List.countP_le_length

/-- **If the lengths of all tables fit**, the file is that of the index. -/
theorem finishIndexPack_of_lt (h : w.objects.length * SHA1_DIGEST_LENGTH < 2 ^ 31) :
    finishIndexPack plat crc packSha1 w.pack w.objects
      = .ok (w.hdr plat crc packSha1).toFile := by
  have hn : w.objects.length * 20 < 2 ^ 31 := h
  have hlarge : (w.packidx plat).nlargeobj ≤ w.objects.length := nlargeobj_packidx_le
  have hids : (w.packidx plat).sortedIds.length = w.objects.length := by
    rw [lists_packidx.ids, List.length_map, length_entries]
  have hfan : (w.packidx plat).fanoutTable.length = 256 := lists_packidx.fanout_length
  have hwrite_large : ∀ out, hwriteLarge out (w.packidx plat)
      = .ok (out ++ ((w.packidx plat).largeOffsets.getD []).flatMap htobe64) := by
    intro out
    unfold hwriteLarge
    split
    · refine hwrite_of_lt ?_ (by omega)
      rw [record_be64.length_flatMap, largeInOrder_packidx.length]
    · next h0 =>
      have hlen : ((w.packidx plat).largeOffsets.getD []).length = (w.packidx plat).nlargeobj :=
        largeInOrder_packidx.length
      have hnil : (w.packidx plat).largeOffsets.getD [] = [] :=
        List.length_eq_zero_iff.mp (by omega)
      rw [hnil, List.flatMap_nil, List.append_nil]
  rw [finishIndexPack_eq, writePackidx,
    show (8 : ℤ) = toInt32 (8 : ℕ) from rfl, hwrite_of_lt (by simp [htobe32]) (by omega), ok_bind,
    hwrite_of_lt (by rw [record_be32.length_flatMap, hfan]; rfl) (by decide), ok_bind,
    hwrite_of_lt (by rw [record_sha1.length_flatMap, hids]) h, ok_bind,
    hwrite_of_lt (by rw [record_be32.length_flatMap, List.length_map,
      (plat.qsort_perm w.objects).length_eq]) (by omega), ok_bind,
    hwrite_of_lt (by rw [record_be32.length_flatMap, length_offsets_packidx]) (by omega), ok_bind,
    hwrite_large, ok_bind, show (SHA1_DIGEST_LENGTH : ℤ) = toInt32 SHA1_DIGEST_LENGTH from rfl,
    hwrite_of_lt packSha1.2 (by decide), ok_bind]
  have hbody : (w.tables plat crc packSha1).body = htobe32 GOT_PACKIDX_V2_MAGIC
      ++ htobe32 GOT_PACKIDX_VERSION ++ (w.packidx plat).fanoutTable.flatMap htobe32
      ++ (w.packidx plat).sortedIds.flatMap Subtype.val
      ++ ((plat.qsort w.objects).map crc).flatMap htobe32
      ++ (w.packidx plat).offsets.flatMap htobe32
      ++ ((w.packidx plat).largeOffsets.getD []).flatMap htobe64 ++ packSha1.val := by
    rw [PackidxHdr.body, getD_largeOffsets]
    simp only [List.append_assoc]
    rfl
  rw [List.nil_append, ← hbody]
  rfl

/-- An object is in one place of the index. -/
theorem entry_of_id {o : IndexedObject} (ho : o ∈ w.objects) {i : ℕ} {e : IdxEntry}
    (he : (w.entries plat)[i]? = some e) (hid : e.1 = o.id) : e.2 = o.offset := by
  obtain ⟨o', ho', rfl⟩ := List.mem_map.mp (List.mem_of_getElem? he)
  have hmem := (plat.qsort_perm w.objects).mem_iff.mp ho'
  rw [List.inj_on_of_nodup_map w.nodup hmem ho hid]
  rfl

/-- Below 2^31 bytes of ids the index reads back as it was made. -/
theorem roundTrips_of_lt (h : w.objects.length * SHA1_DIGEST_LENGTH < 2 ^ 31) :
    RoundTrips plat crc packSha1 w := by
  have hn : w.objects.length * 20 < 2 ^ 31 := h
  have hlen : ¬2 ^ 30 < (w.entries plat).length := by
    rw [length_entries]
    omega
  have hl : Lists (w.hdr plat crc packSha1).toPackidx (w.entries plat) := lists_hdr
  refine ⟨_, w.hdr plat crc packSha1, finishIndexPack_of_lt h,
    gotPackidxInitHdr_eq_ok_iff.mpr ⟨isPackidx_hdr, fun _ => rfl, [], ?_⟩, fun o ho => ?_,
    fun id hid => ?_⟩
  · rw [List.append_nil]
    rfl
  · rcases gotPackidxGetObjectIdx_spec hl o.id with ⟨i, e, hi, he, heq⟩ | ⟨-, hnone⟩ | ⟨-, hbig⟩
    · refine ⟨i, hi, ?_⟩
      rw [lists_hdr.offset_at he, entry_of_id ho he heq]
    · exact absurd rfl (hnone o.entry
        (List.mem_map_of_mem ((plat.qsort_perm w.objects).mem_iff.mpr ho)))
    · exact absurd hbig hlen
  · rcases gotPackidxGetObjectIdx_spec hl id with ⟨i, e, -, he, heq⟩ | ⟨hnone, -⟩ | ⟨-, hbig⟩
    · obtain ⟨o, ho, rfl⟩ := List.mem_map.mp (List.mem_of_getElem? he)
      exact absurd heq (hid o ((plat.qsort_perm w.objects).mem_iff.mp ho))
    · exact hnone
    · exact absurd hbig hlen

/-- An index that is accepted is a file of some length. -/
theorem length_of_accepted {sha1 : Bytes → Sha1} {verify : Bool} {file : Bytes} {p : PackidxHdr}
    (h : gotPackidxInitHdr sha1 verify file = .ok p) :
    1072 + totobj p.fanoutTable * 28 ≤ file.length := by
  obtain ⟨hp, -, rest, rfl⟩ := gotPackidxInitHdr_eq_ok_iff.mp h
  have hfan : p.fanoutTable.length = 256 := hp.fanout_length
  have hpack : p.packfileSha1.val.length = 20 := p.packfileSha1.2
  have hidx : p.packidxSha1.val.length = 20 := p.packidxSha1.2
  have hids : (p.sortedIds.flatMap Subtype.val).length = totobj p.fanoutTable * 20 := by
    rw [record_sha1.length_flatMap, hp.ids_length]
    rfl
  simp only [PackidxHdr.body, List.length_append, record_be32.length_enc,
    record_be32.length_flatMap,
    hfan, hids, hp.crc32_length, hp.offsets_length, hpack, hidx]
  omega

/-- Two files that begin with the same magic and version have the same fan-out
table. -/
theorem fanoutTable_of_accepted {sha1 : Bytes → Sha1} {verify : Bool} {rest : Bytes}
    {p : PackidxHdr} {fanoutTable : List UInt32} (hlen : fanoutTable.length = 256)
    (h : gotPackidxInitHdr sha1 verify (htobe32 GOT_PACKIDX_V2_MAGIC
      ++ (htobe32 GOT_PACKIDX_VERSION ++ (fanoutTable.flatMap htobe32 ++ rest))) = .ok p) :
    p.fanoutTable = fanoutTable := by
  obtain ⟨hp, -, rest', heq⟩ := gotPackidxInitHdr_eq_ok_iff.mp h
  have hlen' : p.fanoutTable.length = fanoutTable.length := hp.fanout_length.trans hlen.symm
  simp only [PackidxHdr.body, List.append_assoc, List.append_cancel_left_eq] at heq
  refine record_be32.flatMap_inj hlen' (List.append_inj_left heq ?_).symm
  rw [record_be32.length_flatMap, record_be32.length_flatMap, hlen']

/-- The table of large offsets is never longer than an `int` can say. -/
theorem length_of_hwriteLarge {out out' : Bytes} {packidx : Packidx}
    (h : hwriteLarge out packidx = .ok out') :
    ∃ large, out' = out ++ large ∧ large.length < 2 ^ 31 := by
  unfold hwriteLarge at h
  split at h
  · obtain ⟨h0, -, heq⟩ := hwrite_eq_ok_iff.mp h
    refine ⟨_, heq, (List.length_take_le _ _).trans_lt ?_⟩
    have := (toInt32_natCast_le h0).1
    omega
  · refine ⟨[], ?_, by decide⟩
    rw [List.append_nil]
    exact (Except.ok.inj h).symm

/-- What is written of a table is never too long. -/
theorem length_take_toInt32 (t : Bytes) {n : ℕ} (h : 0 ≤ toInt32 n) :
    (t.take (toInt32 n).toNat).length ≤ n := by
  have := (toInt32_natCast_le h).2
  exact (List.length_take_le _ _).trans (by omega)

/-- It is too short if the length is not an `int`. -/
theorem length_take_of_overflow (t : Bytes) {n : ℕ} (h : 0 ≤ toInt32 n) (hn : 2 ^ 31 ≤ n) :
    (t.take (toInt32 n).toNat).length + 2 ^ 32 ≤ n := by
  have := toInt32_natCast_le h
  have hle := List.length_take_le (toInt32 n).toNat t
  omega

/-- The parts of a file without 2 GB of its ids. -/
theorem sum_lt {n a b c d e : ℕ} (ha : a + 2 ^ 32 ≤ n * 20) (hb : b ≤ n * 4) (hc : c ≤ n * 4)
    (hd : d < 2 ^ 31) (he : e ≤ 20) : a + (b + (c + (d + (e + 20)))) < n * 28 := by
  omega

/-- **If the length of the table of ids does not fit**, then what is written
behind the fan-out table is too short. -/
theorem length_of_writePackidx {sha1 : Bytes → Sha1} {nobj : ℕ} {packidx : Packidx}
    {crc32 : List UInt32} {file : Bytes} (hfan : packidx.fanoutTable.length = 256)
    (hn : 2 ^ 31 ≤ nobj * SHA1_DIGEST_LENGTH)
    (h : writePackidx sha1 packSha1 nobj packidx crc32 = .ok file) :
    ∃ rest, file = htobe32 GOT_PACKIDX_V2_MAGIC ++ (htobe32 GOT_PACKIDX_VERSION
        ++ (packidx.fanoutTable.flatMap htobe32 ++ rest)) ∧ rest.length < nobj * 28 := by
  rw [writePackidx] at h
  simp only [bind_eq_ok_iff, hwrite_eq_ok_iff] at h
  obtain ⟨out₁, ⟨-, -, rfl⟩, out₂, ⟨-, -, rfl⟩, out₃, ⟨hids, -, rfl⟩, out₄, ⟨hcrc, -, rfl⟩, out₅,
    ⟨hoffs, -, rfl⟩, out₆, hlarge, out₇, ⟨-, -, rfl⟩, h⟩ := h
  obtain ⟨large, rfl, hlarge_len⟩ := length_of_hwriteLarge hlarge
  have hhead : (htobe32 GOT_PACKIDX_V2_MAGIC ++ htobe32 GOT_PACKIDX_VERSION).take (8 : ℤ).toNat
      = htobe32 GOT_PACKIDX_V2_MAGIC ++ htobe32 GOT_PACKIDX_VERSION := rfl
  have htable : (packidx.fanoutTable.flatMap htobe32).take
      (toInt32 (GOT_PACKIDX_V2_FANOUT_TABLE_ITEMS * 4 : ℕ)).toNat
      = packidx.fanoutTable.flatMap htobe32 :=
    List.take_of_length_le (by rw [record_be32.length_flatMap, hfan]; decide)
  rw [hhead, htable] at h
  obtain rfl := Except.ok.inj h
  refine ⟨_, by simp only [List.append_assoc, List.nil_append]; rfl, ?_⟩
  -- of the ids, at least 2 ^ 32 bytes are missing
  have hids_len := length_take_of_overflow (packidx.sortedIds.flatMap Subtype.val) hids hn
  have hcrc_len := length_take_toInt32 (crc32.flatMap htobe32) hcrc
  have hoffs_len := length_take_toInt32 (packidx.offsets.flatMap htobe32) hcrc
  have hpack_len : (packSha1.val.take (SHA1_DIGEST_LENGTH : ℤ).toNat).length ≤ 20 :=
    List.length_take_le 20 _
  have hsha : ∀ id : Sha1, id.val.length = 20 := fun id => id.2
  simp only [List.length_append, hsha]
  exact sum_lt hids_len hcrc_len hoffs_len hlarge_len hpack_len

/-- **If the length of the table of ids does not fit**, the file is not
accepted. -/
theorem not_roundTrips_of_le (h : 2 ^ 31 ≤ w.objects.length * SHA1_DIGEST_LENGTH) :
    ¬RoundTrips plat crc packSha1 w := by
  rintro ⟨file, p, hfile, hp, -, -⟩
  have hfan : (w.packidx plat).fanoutTable.length = 256 := lists_packidx.fanout_length
  rw [finishIndexPack_eq] at hfile
  obtain ⟨rest, rfl, hrest⟩ := length_of_writePackidx hfan h hfile
  have hlen := length_of_accepted hp
  rw [fanoutTable_of_accepted hfan hp, totobj_packidx] at hlen
  simp only [List.length_append, record_be32.length_enc, record_be32.length_flatMap, hfan] at hlen
  omega

variable (plat crc packSha1 w) in
/-- **The file of a pack index can be read back if and only if the length of its table of ids is an
`int`.** The tables are written one behind the other, each with a length that is a product. In the
one of the ids both factors are of type `int`; from `2 ^ 31` bytes on it is negative or too small,
and what is written then is no index that the reader accepts. -/
theorem roundTrips_iff :
    RoundTrips plat crc packSha1 w ↔ w.objects.length * SHA1_DIGEST_LENGTH < 2 ^ 31 :=
  ⟨fun h => Nat.lt_of_not_le fun hle => not_roundTrips_of_le hle h, roundTrips_of_lt⟩

end Writer

/-! A pack of 2 GB with as many blobs of four bytes as make the table of ids too
long. -/

/-- How many ids are just too many. -/
def tooMany : ℕ := 107374183

/-- The object number `i` of a pack of many small blobs, with `i` as its id. -/
def manyObject (i : ℕ) : IndexedObject where
  offset := 12 + 16 * i
  tslen := 1
  type := GOT_OBJ_TYPE_BLOB
  size := 4
  id := oidOf (bigEndian SHA1_DIGEST_LENGTH i)
  valid := true

/-- Different objects have different ids. -/
theorem manyObject_id_inj {i j : ℕ} (hi : i < tooMany) (hj : j < tooMany)
    (h : (manyObject i).id = (manyObject j).id) : i = j := by
  have hkey : ∀ k < tooMany, idKey (manyObject k).id.val = k := by
    intro k hk
    show idKey (oidOf (bigEndian SHA1_DIGEST_LENGTH k)).val = k
    rw [record_sha1.enc_dec _ (length_bigEndian _ _), idKey_bigEndian]
    exact Nat.mod_eq_of_lt (hk.trans (by decide))
  rw [← hkey i hi, h, hkey j hj]

/-- So many objects that the length of their ids exceeds an `int`. -/
def manyObjects : PackObjects where
  pack := { file := List.replicate (2 ^ 31) 0, mapped := false }
  objects := (List.range tooMany).map manyObject
  ne_nil := by
    intro h
    have hlen := congrArg List.length h
    rw [List.length_map, List.length_range] at hlen
    exact absurd hlen (by decide)
  length_lt := by
    rw [List.length_map, List.length_range]
    decide
  valid := by
    intro o ho
    obtain ⟨i, -, rfl⟩ := List.mem_map.mp ho
    rfl
  nodup := by
    rw [List.map_map]
    exact List.Nodup.map_on (fun i hi j hj h =>
      manyObject_id_inj (List.mem_range.mp hi) (List.mem_range.mp hj) h) List.nodup_range
  offset_lt := by
    intro o ho
    obtain ⟨i, hi, rfl⟩ := List.mem_map.mp ho
    have hlt : i < 107374183 := List.mem_range.mp hi
    have hsize : (⟨List.replicate (2 ^ 31) 0, false⟩ : Pack).filesize = 2 ^ 31 :=
      List.length_replicate
    rw [hsize]
    show 12 + 16 * i < 2 ^ 31
    omega
  filesize_lt := by
    have hsize : (⟨List.replicate (2 ^ 31) 0, false⟩ : Pack).filesize = 2 ^ 31 :=
      List.length_replicate
    rw [hsize]
    decide

/-- An index of so many objects cannot be read back. -/
theorem manyObjects_not_roundTrips :
    ¬RoundTrips laterBasePlatform (fun _ => 0) unknownId manyObjects := by
  refine not_roundTrips_of_le ?_
  have hlen : manyObjects.objects.length = tooMany := by
    rw [manyObjects, List.length_map, List.length_range]
  rw [hlen]
  decide

end Got

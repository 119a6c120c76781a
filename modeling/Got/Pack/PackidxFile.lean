import Got.Pack.Packidx

/-!
# The file of a pack index

A pack index is stored as one table behind the other, after a magic number and
a version: fan-out, ids, checksums, offsets, and large offsets if there are
any. How many objects there are is told by the last entry of the fan-out
table, and how many large offsets by the offsets themselves. The file ends with
the digest of the pack file and a digest of everything before it.

`gotPackidxInitHdr_eq_ok_iff` says which files are accepted: those that begin
with the tables of the index that is returned, written out, followed by their
digest. What the reader checks about these tables is `IsPackidx`.
-/

namespace Got

open Records

def GOT_PACKIDX_V2_MAGIC : UInt32 := 0xff744f63
def GOT_PACKIDX_VERSION : UInt32 := 2
def GOT_PACKIDX_V2_FANOUT_TABLE_ITEMS : ℕ := 0xff + 1

/-- A pack index as it is read from a file: the tables, and checksums. -/
structure PackidxHdr extends Packidx where
  /-- A checksum for each object in its packed form. -/
  crc32 : List UInt32
  /-- The digest of the pack file. -/
  packfileSha1 : Sha1
  /-- The digest of what comes before it in the file. -/
  packidxSha1 : Sha1

/-! ## Reading -/

/-- **Check that the fan-out table is in order.** The loop ends one round early:
the last two entries are not compared. -/
def verifyFanoutTable (fanoutTable : List UInt32) : Except GotErr Unit :=
  check .badPackidx
    ((List.range (0xff - 1)).any (fun i => fanoutTable.getD i 0 > fanoutTable.getD (i + 1) 0))

/-- The number of objects, as the fan-out table tells it. -/
def totobj (fanoutTable : List UInt32) : ℕ := (fanoutTable.getD 0xff 0).toNat

/-- The number of large offsets: a loop over the offsets, whose counter is an
`int`. It ends with the table, or when the counter overflows. -/
def countLarge (offsets : List UInt32) : ℕ :=
  (offsets.take (2 ^ 31)).countP (fun o => o &&& GOT_PACKIDX_OFFSET_VAL_IS_LARGE_IDX ≠ 0)

/-- Large file offsets are contained only in files > 2GB. -/
def readLargeOffsets (nlargeobj : ℕ) (remain : Bytes) :
    Except GotErr (Option (List UInt64) × Bytes) :=
  if nlargeobj = 0 then .ok (none, remain)
  else (readTable .badPackidx 8 be64toh nlargeobj remain).map (fun (t, rest) => (some t, rest))

/-- **Read a pack index from a file.** What has been hashed when the digests
are read is everything in front of the second of them. -/
def gotPackidxInitHdr (sha1 : Bytes → Sha1) (verify : Bool) (file : Bytes) :
    Except GotErr PackidxHdr := do
  let (magic, remain) ← readField .badPackidx 4 be32toh file
  check .badPackidx (magic ≠ GOT_PACKIDX_V2_MAGIC)
  let (version, remain) ← readField .badPackidx 4 be32toh remain
  check .badPackidx (version ≠ GOT_PACKIDX_VERSION)
  let (fanoutTable, remain) ←
    readTable .badPackidx 4 be32toh GOT_PACKIDX_V2_FANOUT_TABLE_ITEMS remain
  verifyFanoutTable fanoutTable
  let nobj := totobj fanoutTable
  check .badPackidx (nobj * SHA1_DIGEST_LENGTH ≤ nobj)
  let (sortedIds, remain) ← readTable .badPackidx SHA1_DIGEST_LENGTH oidOf nobj remain
  let (crc32, remain) ← readTable .badPackidx 4 be32toh nobj remain
  let (offsets, remain) ← readTable .badPackidx 4 be32toh nobj remain
  let (largeOffsets, remain) ← readLargeOffsets (countLarge offsets) remain
  let (packfileSha1, remain) ← readField .badPackidx SHA1_DIGEST_LENGTH oidOf remain
  let hashed := file.take (file.length - remain.length)
  let (packidxSha1, _) ← readField .badPackidx SHA1_DIGEST_LENGTH oidOf remain
  check .packidxCsum (verify = true ∧ packidxSha1 ≠ sha1 hashed)
  return {
    fanoutTable := fanoutTable
    sortedIds := sortedIds
    offsets := offsets
    largeOffsets := largeOffsets
    nlargeobj := countLarge offsets
    crc32 := crc32
    packfileSha1 := packfileSha1
    packidxSha1 := packidxSha1 }

/-! ## What is accepted -/

/-- **What the reader checks** about the tables of an index. -/
structure IsPackidx (p : PackidxHdr) : Prop where
  fanout_length : p.fanoutTable.length = GOT_PACKIDX_V2_FANOUT_TABLE_ITEMS
  fanout_verified : verifyFanoutTable p.fanoutTable = .ok ()
  totobj_ne_zero : totobj p.fanoutTable ≠ 0
  ids_length : p.sortedIds.length = totobj p.fanoutTable
  crc32_length : p.crc32.length = totobj p.fanoutTable
  offsets_length : p.offsets.length = totobj p.fanoutTable
  nlargeobj_eq : p.nlargeobj = countLarge p.offsets
  large_length : (p.largeOffsets.getD []).length = p.nlargeobj
  large_none : p.largeOffsets = none ↔ p.nlargeobj = 0

/-- The file of an index, up to the digest of what is in it. -/
def PackidxHdr.body (p : PackidxHdr) : Bytes :=
  htobe32 GOT_PACKIDX_V2_MAGIC ++ (htobe32 GOT_PACKIDX_VERSION ++ (p.fanoutTable.flatMap htobe32
    ++ (p.sortedIds.flatMap Subtype.val ++ (p.crc32.flatMap htobe32 ++ (p.offsets.flatMap htobe32
      ++ ((p.largeOffsets.getD []).flatMap htobe64 ++ p.packfileSha1.val))))))

/-- As many large offsets are read as the offsets ask for, and none is no table. -/
theorem readLargeOffsets_eq_ok_iff {nlargeobj : ℕ} {remain rest : Bytes}
    {largeOffsets : Option (List UInt64)} :
    readLargeOffsets nlargeobj remain = .ok (largeOffsets, rest) ↔
      (largeOffsets.getD []).length = nlargeobj ∧ (largeOffsets = none ↔ nlargeobj = 0)
        ∧ remain = (largeOffsets.getD []).flatMap htobe64 ++ rest := by
  unfold readLargeOffsets
  by_cases h : nlargeobj = 0
  · rw [if_pos h, h]
    cases largeOffsets with
    | none => simp
    | some large => simp
  · simp only [if_neg h, map_eq_ok_iff, Prod.exists, record_be64.readTable_eq_ok_iff,
      Prod.mk.injEq]
    constructor
    · rintro ⟨t, rest, ⟨hlen, rfl⟩, rfl, rfl⟩
      exact ⟨hlen, by simp [h], rfl⟩
    · rintro ⟨hlen, hnone, rfl⟩
      obtain ⟨t, rfl⟩ := Option.ne_none_iff_exists'.mp (fun hn => h (hnone.mp hn))
      exact ⟨t, rest, ⟨hlen, rfl⟩, rfl, rfl⟩

variable {sha1 : Bytes → Sha1} {verify : Bool} {file : Bytes} {p : PackidxHdr}

theorem verifyFanoutTable_eq_ok_iff {fanoutTable : List UInt32} :
    verifyFanoutTable fanoutTable = .ok () ↔
      ∀ i < 0xff - 1, fanoutTable.getD i 0 ≤ fanoutTable.getD (i + 1) 0 := by
  simp [verifyFanoutTable, check_eq_ok_iff]

/-- **Which files are accepted**: those that begin with an index, followed by
its digest if that is verified. -/
theorem gotPackidxInitHdr_eq_ok_iff :
    gotPackidxInitHdr sha1 verify file = .ok p ↔
      IsPackidx p ∧ (verify = true → p.packidxSha1 = sha1 p.body)
        ∧ ∃ rest, file = p.body ++ (p.packidxSha1.val ++ rest) := by
  unfold gotPackidxInitHdr
  simp only [bind_eq_ok_iff, Prod.exists, record_be32.readField_eq_ok_iff,
    record_be32.readTable_eq_ok_iff, record_sha1.readField_eq_ok_iff,
    record_sha1.readTable_eq_ok_iff, check_eq_ok_iff, readLargeOffsets_eq_ok_iff, not_not]
  constructor
  · rintro ⟨magic, _, hfile, -, rfl, version, _, rfl, -, rfl, fanoutTable, _, ⟨hfan, rfl⟩, _,
      hverify, -, hnobj, ids, _, ⟨hids, rfl⟩, crc, _, ⟨hcrc, rfl⟩, offs, _, ⟨hoffs, rfl⟩, large, _,
      ⟨hlarge, hnone, rfl⟩, packSha1, _, rfl, idxSha1, rest, rfl, -, hsum, h⟩
    cases h
    have hfile' : file = PackidxHdr.body ⟨⟨fanoutTable, ids, offs, large, countLarge offs⟩, crc,
        packSha1, idxSha1⟩ ++ (idxSha1.val ++ rest) := by
      simp only [hfile, PackidxHdr.body, List.append_assoc]
    refine ⟨⟨hfan, hverify, fun h0 => hnobj (by rw [h0, Nat.zero_mul]), hids, hcrc, hoffs, rfl,
      hlarge, hnone⟩, fun hv => ?_, rest, hfile'⟩
    by_contra hne
    refine hsum ⟨hv, ?_⟩
    rw [hfile', take_sub_length]
    exact hne
  · rintro ⟨hp, hsum, rest, hfile⟩
    refine ⟨_, _, by simpa only [PackidxHdr.body, List.append_assoc] using hfile, (), rfl, _, _,
      rfl,
      (), rfl, p.fanoutTable, _, ⟨hp.fanout_length, rfl⟩, (), hp.fanout_verified, (), ?_,
      p.sortedIds, _, ⟨hp.ids_length, rfl⟩, p.crc32, _, ⟨hp.crc32_length, rfl⟩, p.offsets, _,
      ⟨hp.offsets_length, rfl⟩, p.largeOffsets, _, ⟨?_, ?_, rfl⟩, p.packfileSha1, _, rfl,
      p.packidxSha1, rest, rfl, (), ?_, ?_⟩
    · have hpos : 0 < totobj p.fanoutTable := Nat.pos_of_ne_zero hp.totobj_ne_zero
      show ¬totobj p.fanoutTable * 20 ≤ totobj p.fanoutTable
      omega
    · rw [hp.large_length, hp.nlargeobj_eq]
    · rw [hp.large_none, hp.nlargeobj_eq]
    · rintro ⟨hv, hne⟩
      rw [hfile, take_sub_length] at hne
      exact hne (hsum hv)
    · rw [← hp.nlargeobj_eq]
      rfl

/-! ## Searches stay within the table -/

/-- **What every search relies on**: the fan-out table is in order, and no
search for an id reads the table of ids at a position where there is none. -/
structure SafeToSearch (p : PackidxHdr) : Prop where
  monotone : ∀ i j, i ≤ j → j ≤ 0xff → p.fanoutTable.getD i 0 ≤ p.fanoutTable.getD j 0
  ids_length : p.sortedIds.length = totobj p.fanoutTable
  inBounds : ∀ id, gotPackidxGetObjectIdx p.toPackidx id ≠ .error .outOfMap

/-- The last two entries of a fan-out table are in order. -/
def LastInOrder (fanoutTable : List UInt32) : Prop :=
  fanoutTable.getD 0xfe 0 ≤ fanoutTable.getD 0xff 0

/-- If the last two entries are in order as well, then all are. -/
theorem IsPackidx.monotone (hp : IsPackidx p) (hlast : LastInOrder p.fanoutTable) {i j : ℕ}
    (hij : i ≤ j) (hj : j ≤ 0xff) : p.fanoutTable.getD i 0 ≤ p.fanoutTable.getD j 0 := by
  induction j, hij using Nat.le_induction with
  | base => exact UInt32.le_refl _
  | succ j _ ih =>
    refine UInt32.le_trans (ih (by omega)) ?_
    rcases Nat.lt_or_ge j 0xfe with h | h
    · exact verifyFanoutTable_eq_ok_iff.mp hp.fanout_verified j h
    · obtain rfl : j = 0xfe := by omega
      exact hlast

/-- A binary search within a table that is not too large reads nothing
outside of it, whatever the table contains. -/
theorem searchIds_isOk {packidx : Packidx} {id : Sha1} (hlen : packidx.sortedIds.length ≤ 2 ^ 30)
    {fuel : ℕ} {left right : ℤ} (hl : 0 ≤ left) (hr : right < packidx.sortedIds.length) :
    ∃ r, searchIds packidx id fuel left right = .ok r := by
  induction fuel generalizing left right with
  | zero => exact ⟨_, rfl⟩
  | succ fuel ih =>
    rw [searchIds]
    split
    · next hle =>
      obtain ⟨i, hi, hli, hir⟩ := middle_of_lt hl hle (by omega)
      dsimp only
      rw [hi, tableAt_of_lt (by omega), ok_bind]
      split
      · exact ⟨_, rfl⟩
      · exact ih (by omega) hr
      · exact ih hl (by omega)
    · exact ⟨_, rfl⟩

/-- Entries of the fan-out table can be read. -/
theorem IsPackidx.tableAt_fanout (hp : IsPackidx p) {i : ℕ} (hi : i ≤ 0xff) :
    tableAt p.fanoutTable i = .ok (p.fanoutTable.getD i 0) := by
  have hlt : i < p.fanoutTable.length := by
    rw [hp.fanout_length]
    exact Nat.lt_succ_of_le hi
  rw [tableAt_of_lt hlt, List.getD_eq_getElem?_getD, List.getElem?_eq_getElem hlt]
  rfl

/-- **A search of an index in order** has a result. -/
theorem IsPackidx.get_isOk (hp : IsPackidx p) (hlast : LastInOrder p.fanoutTable)
    (hlen : totobj p.fanoutTable ≤ 2 ^ 30) (id : Sha1) :
    ∃ r, gotPackidxGetObjectIdx p.toPackidx id = .ok r := by
  have hfirst : ∃ left : ℕ, firstIdx p.toPackidx (id.val.headD 0) = .ok (left : ℤ) := by
    unfold firstIdx
    split
    · next hpos =>
      have hpos := UInt8.lt_iff_toNat_lt.mp hpos
      have hlt := (id.val.headD 0).toNat_lt
      have hidx : ((id.val.headD 0).toNat - 1 : ℤ) = ((id.val.headD 0).toNat - 1 : ℕ) := by
        have : (0 : UInt8).toNat = 0 := rfl
        omega
      have hle := UInt32.le_iff_toNat_le.mp
        (hp.monotone hlast (i := (id.val.headD 0).toNat - 1) (by omega) (le_refl 0xff))
      rw [hidx, hp.tableAt_fanout (by omega), ok_bind]
      exact ⟨_, congrArg Except.ok
        (toInt32_of_lt (by omega) (by unfold totobj at hlen; omega))⟩
    · exact ⟨0, rfl⟩
  obtain ⟨left, hleft⟩ := hfirst
  have hright : toInt32 (p.fanoutTable.getD 0xff 0 - 1).toNat
      = (totobj p.fanoutTable : ℤ) - 1 := toInt32_pred rfl (by omega)
  have hids : ∃ r, searchIds p.toPackidx id ((totobj p.fanoutTable : ℤ) - 1 - left + 1).toNat left
      ((totobj p.fanoutTable : ℤ) - 1) = .ok r :=
    searchIds_isOk (by rw [hp.ids_length]; exact hlen) (by omega) (by rw [hp.ids_length]; omega)
  obtain ⟨r, hr⟩ := hids
  have hsearch : searchPackidx p.toPackidx id = .ok r := by
    unfold searchPackidx
    rw [show (0xff : ℤ) = (0xff : ℕ) from rfl, hp.tableAt_fanout (le_refl _), ok_bind]
    dsimp only
    rw [hleft, ok_bind, hright]
    exact hr
  unfold gotPackidxGetObjectIdx
  rw [hsearch, ok_bind]
  cases r with
  | inl i => exact ⟨some i, rfl⟩
  | inr left => exact ⟨none, rfl⟩

/-- **An index that is accepted is safe to search if its last two fan-out
entries are in order**, and only then; for as long as the sum of two positions
is an `int`. -/
theorem safeToSearch_iff (h : gotPackidxInitHdr sha1 verify file = .ok p) :
    (SafeToSearch p → LastInOrder p.fanoutTable)
      ∧ (LastInOrder p.fanoutTable ∧ totobj p.fanoutTable ≤ 2 ^ 30 → SafeToSearch p) := by
  obtain ⟨hp, -, -⟩ := gotPackidxInitHdr_eq_ok_iff.mp h
  refine ⟨fun hs => hs.monotone 0xfe 0xff (by omega) (le_refl _), fun ⟨hlast, hlen⟩ => ?_⟩
  refine ⟨fun i j => hp.monotone hlast, hp.ids_length, fun id herr => ?_⟩
  obtain ⟨r, hr⟩ := hp.get_isOk hlast hlen id
  rw [hr] at herr
  exact nomatch herr

/-! An index of one object, with the digests of the two files that follow in
place of the hash function. -/

/-- An index of one object whose id begins with `0x11`. -/
def oneObject (fanoutTable : List UInt32) (packidxSha1 : Bytes) : PackidxHdr where
  fanoutTable := fanoutTable
  sortedIds := [oidOf (List.replicate SHA1_DIGEST_LENGTH 0x11)]
  offsets := [12]
  largeOffsets := none
  nlargeobj := 0
  crc32 := [0]
  packfileSha1 := oidOf (List.replicate SHA1_DIGEST_LENGTH 0x22)
  packidxSha1 := oidOf packidxSha1

/-- The file of an index. -/
def PackidxHdr.toFile (p : PackidxHdr) : Bytes := p.body ++ p.packidxSha1.val

/-- A file of one object is accepted once its fanout table is. -/
theorem oneObject_accepted {fanoutTable : List UInt32} {digest : Bytes}
    (hlen : fanoutTable.length = GOT_PACKIDX_V2_FANOUT_TABLE_ITEMS)
    (hverify : verifyFanoutTable fanoutTable = .ok ()) (hobj : totobj fanoutTable = 1) :
    gotPackidxInitHdr (fun _ => oidOf digest) true (oneObject fanoutTable digest).toFile
      = .ok (oneObject fanoutTable digest) := by
  refine gotPackidxInitHdr_eq_ok_iff.mpr ⟨⟨hlen, hverify, ?_, ?_, ?_, ?_, rfl, rfl, ?_⟩,
    fun _ => rfl, [], (List.append_nil _).symm ▸ rfl⟩
  · rw [show totobj (oneObject fanoutTable digest).fanoutTable = 1 from hobj]
    decide
  · exact hobj.symm
  · exact hobj.symm
  · exact hobj.symm
  · simp [oneObject]

/-- The entries that count the object begin at `0x11`. -/
def orderedHdr : PackidxHdr := oneObject (List.replicate 0x11 0 ++ List.replicate 239 1)
  [0xac, 0x42, 0x75, 0xcd, 0x01, 0xe7, 0x1f, 0x0d, 0xb9, 0x7f, 0x5a, 0xbf, 0x16, 0xd2, 0x1e, 0x53,
    0xf9, 0xe6, 0x65, 0xcc]

/-- The last entry is less than the one in front of it, which is negative as an
`int`. -/
def unorderedHdr : PackidxHdr := oneObject (List.replicate 0xfe 0 ++ [0x80000001, 1])
  [0xf4, 0xa2, 0x15, 0x65, 0x39, 0xee, 0xf0, 0x81, 0xd3, 0x87, 0x3d, 0xd9, 0xac, 0x84, 0xd8, 0xad,
    0x15, 0x15, 0x3c, 0x88]

theorem orderedHdr_safeToSearch : SafeToSearch orderedHdr :=
  (safeToSearch_iff (oneObject_accepted (by decide +kernel) (by decide +kernel)
    (by decide +kernel))).2
    ⟨by unfold LastInOrder; decide +kernel, by decide +kernel⟩

/-- The id whose bytes are all `0xff`, of which there is none in the index. -/
def lastId : Sha1 := oidOf (List.replicate SHA1_DIGEST_LENGTH 0xff)

/-- A file whose fanout table falls is accepted, and the search for the last id leaves the table. -/
theorem unorderedHdr_not_safeToSearch :
    gotPackidxInitHdr (fun _ => unorderedHdr.packidxSha1) true unorderedHdr.toFile
        = .ok unorderedHdr
      ∧ gotPackidxGetObjectIdx unorderedHdr.toPackidx lastId = .error .outOfMap
      ∧ ¬SafeToSearch unorderedHdr := by
  have hread : gotPackidxGetObjectIdx unorderedHdr.toPackidx lastId = .error .outOfMap := by
    decide +kernel
  exact ⟨oneObject_accepted (by decide +kernel) (by decide +kernel) (by decide +kernel), hread,
    fun h => h.inBounds _ hread⟩

end Got

import Got.Pack.Dump

/-!
# Indexing a pack file

`got-index-pack` makes an index for a pack file that was fetched. It reads the
file once to find all objects. The ids of plain objects are known then, and
those of deltified objects are found in a second pass: resolve the chain of
deltas, restore the object, and hash it. A delta may name its base by an id,
and that can be looked up only in the part of the index made so far. So the
second pass is a loop over all objects that goes on until everything is
resolved.

This module is the code of the second pass: the index while it grows
(`makePackidx`, `updatePackidx`), one object (`resolveDeltifiedObject`), one
round (`resolvePass`) and the loop (`passLoop`).

What is taken from outside is a `Platform`: zlib, the hash function, `qsort`,
which need not be stable, and what memory and temporary files hold at the time
an object is restored.
-/

namespace Got

open SortedTable

/-! ## Objects -/

/-- An object in the pack file. -/
structure IndexedObject extends ObjHdr where
  /-- The id, or all bits set as long as it is not known. -/
  id : Sha1
  /-- Whether the id is known. -/
  valid : Bool
  deriving DecidableEq

/-- The id of an object whose id is not known. -/
def unknownId : Sha1 := ⟨List.replicate SHA1_DIGEST_LENGTH 0xff, List.length_replicate⟩

/-- **What the code takes from outside.** -/
structure Platform where
  /-- zlib. -/
  inflate : Bytes → Except GotErr Bytes
  /-- The SHA1 digest of a string of bytes. -/
  sha1 : Bytes → Sha1
  /-- `qsort` by `indexed_obj_cmp`, which compares ids. -/
  qsort : List IndexedObject → List IndexedObject
  qsort_perm : ∀ objects, (qsort objects).Perm objects
  qsort_sorted : ∀ objects, SortedBy (fun o => idKey o.id.val) (qsort objects)
  /-- What memory and temporary files hold when an object is restored, which
  happens at most once for each object. -/
  scratch : ObjHdr → Heap × TmpFiles

def GOT_OBJ_LABEL_COMMIT : List Char := ['c', 'o', 'm', 'm', 'i', 't']
def GOT_OBJ_LABEL_TREE : List Char := ['t', 'r', 'e', 'e']
def GOT_OBJ_LABEL_BLOB : List Char := ['b', 'l', 'o', 'b']
def GOT_OBJ_LABEL_TAG : List Char := ['t', 'a', 'g']

/-- The label of an object type, as it is hashed in front of the content. -/
def getObjTypeLabel (objType : UInt8) : Except GotErr (List Char) :=
  if objType = GOT_OBJ_TYPE_BLOB then .ok GOT_OBJ_LABEL_BLOB
  else if objType = GOT_OBJ_TYPE_TREE then .ok GOT_OBJ_LABEL_TREE
  else if objType = GOT_OBJ_TYPE_COMMIT then .ok GOT_OBJ_LABEL_COMMIT
  else if objType = GOT_OBJ_TYPE_TAG then .ok GOT_OBJ_LABEL_TAG
  else .error .objType

/-- The header which is hashed together with an object: label, length, and a
final zero. -/
def objectHeader (label : List Char) (len : ℕ) : Bytes :=
  (label ++ [' '] ++ Nat.toDigits 10 len).map (fun c => c.toNat.toUInt8) ++ [0]

variable (plat : Platform)

/-- **Read an object in the first pass.** A plain object is hashed and is
valid. A delta is only inflated, to see where it ends. -/
def readPackedObject (pack : Pack) (off : ℕ) : Except GotErr IndexedObject := do
  let h ← gotPackParseObjectTypeAndSize pack off
  let mapoff := h.offset + h.tslen
  if isPlainType h.type then
    let data ← plat.inflate (pack.file.drop mapoff)
    let label ← getObjTypeLabel h.type
    return { h with id := plat.sha1 (objectHeader label h.size.toNat ++ data), valid := true }
  else if h.type = GOT_OBJ_TYPE_REF_DELTA then
    if pack.mapped ∧ pack.filesize ≤ mapoff + SHA1_DIGEST_LENGTH then throw .badPackfile
    let _ ← pack.idAt mapoff
    let _ ← plat.inflate (pack.file.drop (mapoff + SHA1_DIGEST_LENGTH))
    return { h with id := unknownId, valid := false }
  else if h.type = GOT_OBJ_TYPE_OFFSET_DELTA then
    let (_, baseOffsetlen) ← gotPackParseOffsetDelta pack h.offset h.tslen
    let _ ← plat.inflate (pack.file.drop (mapoff + baseOffsetlen))
    return { h with id := unknownId, valid := false }
  else throw .objType

/-- The type of the base object of a chain. -/
def gotDeltaChainGetBaseType : DeltaChain → Except GotErr UInt8
  | [] => .error .badDeltaChain
  | delta :: _ => if isPlainType delta.type then .ok delta.type else .error .badDeltaChain

/-- Restore an object from its chain, by way of files if it is large. -/
def dumpDeltaChain (pack : Pack) (obj : ObjHdr) (deltas : DeltaChain) : Except GotErr Bytes := do
  let maxSize ← gotPackGetDeltaChainMaxSize plat.inflate pack deltas
  let (heap, files) := plat.scratch obj
  if maxSize.toNat > GOT_DELTA_RESULT_SIZE_CACHED_MAX
  then gotPackDumpDeltaChainToFile plat.inflate heap files pack deltas
  else gotPackDumpDeltaChainToMem plat.inflate heap pack deltas

/-- **Find the id of a deltified object.** -/
def resolveDeltifiedObject (pack : Pack) (packidx : Packidx) (obj : ObjHdr) :
    Except GotErr Sha1 :=
  match gotPackResolveDeltaChain [] packidx pack obj GOT_DELTA_CHAIN_RECURSION_MAX with
  | (_, .error e) => .error e
  | (deltas, .ok ()) => do
    let buf ← dumpDeltaChain plat pack obj deltas
    let baseObjType ← gotDeltaChainGetBaseType deltas
    let label ← getObjTypeLabel baseObjType
    return plat.sha1 (objectHeader label buf.length ++ buf)

/-! ## The index in progress

The tables are allocated for all objects; here they are as long as the part
in use. The checksums are written beside the offsets and not read. -/

/-- A pack index without entries. -/
def emptyPackidx (pack : Pack) : Packidx where
  fanoutTable := List.replicate 256 0
  sortedIds := []
  offsets := []
  largeOffsets :=
    if GOT_PACKIDX_OFFSET_VAL_IS_LARGE_IDX.toNat ≤ pack.filesize then some [] else none
  nlargeobj := 0

/-- Write an object to a slot of the pack index that was made free. -/
def addIndexedObject (packidx : Packidx) (idx : ℕ) (obj : IndexedObject) : Packidx :=
  let small := obj.offset < GOT_PACKIDX_OFFSET_VAL_IS_LARGE_IDX.toNat
  { fanoutTable := packidx.fanoutTable.mapIdx
      (fun i n => if (obj.id.val.headD 0).toNat ≤ i then n + 1 else n)
    sortedIds := insertAt packidx.sortedIds idx obj.id
    offsets := insertAt packidx.offsets idx
      (if small then obj.offset.toUInt32
        else packidx.nlargeobj.toUInt32 ||| GOT_PACKIDX_OFFSET_VAL_IS_LARGE_IDX)
    largeOffsets := if small then packidx.largeOffsets
      else packidx.largeOffsets.map (· ++ [obj.offset.toUInt64])
    nlargeobj := if small then packidx.nlargeobj else packidx.nlargeobj + 1 }

/-- The loop of `make_packidx`: valid objects are written one behind the
other. -/
def addValidObjects : ℕ → List IndexedObject → Packidx → Packidx
  | _, [], packidx => packidx
  | idx, obj :: objects, packidx =>
    if obj.valid then addValidObjects (idx + 1) objects (addIndexedObject packidx idx obj)
    else addValidObjects idx objects packidx

/-- **Make a pack index of the objects that are valid**, after sorting them in
place. -/
def makePackidx (pack : Pack) (objects : List IndexedObject) : List IndexedObject × Packidx :=
  (plat.qsort objects, addValidObjects 0 (plat.qsort objects) (emptyPackidx pack))

/-- Determine the slot in the pack index a given object id should use. None if
the object is already indexed. -/
def findObjectIdx (packidx : Packidx) (id : Sha1) : Except GotErr (Option ℤ) := do
  match ← searchPackidx packidx id with
  | .inl _ => return none
  | .inr left => return some left

/-- **Put an object whose id was found into the index.** -/
def updatePackidx (packidx : Packidx) (obj : IndexedObject) : Except GotErr Packidx := do
  match ← findObjectIdx packidx obj.id with
  | none => return packidx
  | some idx => return addIndexedObject packidx idx.toNat obj

/-! ## The second pass -/

/-- Whether an object is stored as a delta. -/
def isDeltaType (type : UInt8) : Bool :=
  type = GOT_OBJ_TYPE_REF_DELTA ∨ type = GOT_OBJ_TYPE_OFFSET_DELTA

/-- The index after an object was resolved, which is kept up to date only if some
delta names its base by an id. -/
def updateIf (haveRefDeltas : Bool) (packidx : Packidx) (obj : IndexedObject) :
    Except GotErr Packidx :=
  if haveRefDeltas then updatePackidx packidx obj else .ok packidx

/-- **One round**: the objects from some position on, with the ids that could
be found, the index, and how many were found. A delta base that is unknown is
left for later rounds, and any other error is final. -/
def resolvePass (pack : Pack) (haveRefDeltas : Bool) :
    List IndexedObject → Packidx → Except GotErr (List IndexedObject × Packidx × ℕ)
  | [], packidx => .ok ([], packidx, 0)
  | obj :: objects, packidx =>
    if ¬isDeltaType obj.type ∨ obj.valid then do
      let (objects, packidx, n) ← resolvePass pack haveRefDeltas objects packidx
      return (obj :: objects, packidx, n)
    else
      match resolveDeltifiedObject plat pack packidx obj.toObjHdr with
      | .error .noObj => do
        let (objects, packidx, n) ← resolvePass pack haveRefDeltas objects packidx
        return (obj :: objects, packidx, n)
      | .error e => .error e
      | .ok id => do
        let obj := { obj with id, valid := true }
        let packidx ← updateIf haveRefDeltas packidx obj
        let (objects, packidx, n) ← resolvePass pack haveRefDeltas objects packidx
        return (obj :: objects, packidx, n + 1)

/-- **The state of the loop.** The two counters are of type `int` in the source. Never more objects
are resolved than there are, and after so many rounds `nvalid` is at most the number of objects
times that of the rounds. Every round but the first ones resolves an object, so nothing overflows
for a pack of fewer than 46,000 objects, nor for a larger one if one round is enough. -/
structure PassState where
  pass : ℕ
  objects : List IndexedObject
  /-- The index as far as it has been made. -/
  packidx : Packidx
  /-- What the loop compares with the number of objects. -/
  nvalid : ℕ
  /-- The number of deltified objects that were resolved, in all rounds. -/
  nresolved : ℕ

/-- **The loop** `while (nvalid != nobj)`, for at most `fuel` rounds. The
number of resolved objects that is added to `nvalid` is that of all rounds so
far. The counters are of type `int`, and what happens when one overflows is not
defined. -/
def passLoop (pack : Pack) (haveRefDeltas : Bool) (nobj firstDeltaIdx : ℕ) :
    ℕ → PassState → Option (Except GotErr PassState)
  | 0, _ => none
  | fuel + 1, s =>
    if s.nvalid = nobj then some (.ok s)
    else
      match resolvePass plat pack haveRefDeltas (s.objects.drop firstDeltaIdx) s.packidx with
      | .error e => some (.error e)
      | .ok (objects, packidx, n) =>
        if s.pass > 3 ∧ n = 0 then
          some (.error (.badPackfileMsg
            "could not resolve any of deltas; packfile could be corrupt"))
        else
          passLoop pack haveRefDeltas nobj firstDeltaIdx fuel
            { pass := s.pass + 1
              objects := s.objects.take firstDeltaIdx ++ objects
              packidx
              nvalid := s.nvalid + (s.nresolved + n)
              nresolved := s.nresolved + n }

/-- The position of the first delta, or the beginning if there is none. -/
def firstDeltaIdx (objects : List IndexedObject) : ℕ :=
  (objects.findIdx? (fun o => ¬isPlainType o.type)).getD 0

/-- Whether there are deltas that name their base by id. -/
def haveRefDeltas (objects : List IndexedObject) : Bool :=
  objects.any (fun o => o.type = GOT_OBJ_TYPE_REF_DELTA)

/-- The number of objects that are valid after the first pass. -/
def nloose (objects : List IndexedObject) : ℕ := objects.countP (fun o => isPlainType o.type)

/-- The state in which the loop begins, given the objects in the order of the
first pass. -/
def startState (pack : Pack) (objects : List IndexedObject) : PassState :=
  let (sorted, packidx) := if haveRefDeltas objects then makePackidx plat pack objects
    else (objects, emptyPackidx pack)
  { pass := 2, objects := sorted, packidx, nvalid := nloose objects, nresolved := 0 }

/-- **The second pass of `index_pack`**, for at most `fuel` rounds, and the
check behind it: the objects, if everything was resolved. -/
def secondPass (pack : Pack) (objects : List IndexedObject) (fuel : ℕ) :
    Option (Except GotErr (List IndexedObject)) :=
  (passLoop plat pack (haveRefDeltas objects) objects.length (firstDeltaIdx objects) fuel
    (startState plat pack objects)).map (fun r => do
      let s ← r
      if nloose objects + s.nresolved ≠ objects.length then
        throw (.badPackfileMsg (s!"discovered only {nloose objects + s.nresolved} of "
          ++ s!"{objects.length} objects"))
      return s.objects)

end Got

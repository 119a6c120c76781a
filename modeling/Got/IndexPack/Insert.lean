import Got.IndexPack.Passes
import Got.Pack.PackidxSearch

/-!
# Inserting into the index in progress

The index in progress begins with the objects whose ids are known after the first pass, and then
takes one object after the other, in any order. Its tables remain what they have to be: ids in
ascending order, a fan-out table that counts them, and for each id the offset of the first object
with that id.

There are two ways in which they can be wrong, and `Insertions.indexInProgress_iff` says that there
are no others. `update_packidx` looks whether an id is there already, but `make_packidx`, which
lists what the first pass has found, does not: objects that share an id are listed as often as there
are objects (`sameBlobTwice_not_indexInProgress`). And the binary search adds two positions as
numbers of type `int`, so that beyond `2 ^ 30` ids the last ones are not found any more.

`find_object_idx` looks for the slot that a *new* object should use. For an id that is there it does
not say where: it returns `-1`, which its caller takes for "already indexed".
-/

namespace Got

open SortedTable

variable {packidx : Packidx} {es : List IdxEntry} {ins : List IndexedObject} {id : Sha1}

/-- **A search for a slot**: none for an id which is there, and for another the place where the ids
before it end. -/
theorem findObjectIdx_spec (h : Lists packidx es) (hlen : es.length ≤ 2 ^ 30) (id : Sha1) :
    (Known es id ∧ findObjectIdx packidx id = .ok none)
      ∨ (¬Known es id ∧ ∃ left right, right < left
        ∧ Brackets IdxEntry.key es (idKey id.val) left right
        ∧ findObjectIdx packidx id = .ok (some left)) := by
  have hs := searchPackidx_spec h id
  unfold findObjectIdx
  cases hr : searchPackidx packidx id with
  | error e =>
    rw [hr] at hs
    exact absurd hs.2 (Nat.not_lt.mpr hlen)
  | ok r =>
    rw [hr] at hs
    cases r with
    | inl i =>
      obtain ⟨e, he, hid⟩ := hs
      exact Or.inl ⟨⟨e, List.mem_of_getElem? he, hid⟩, rfl⟩
    | inr left =>
      obtain ⟨right, hrl, hb⟩ := hs
      refine Or.inr ⟨fun ⟨e, he, hid⟩ => hb.not_mem hrl e he ?_, left, right, hrl, hb, rfl⟩
      rw [IdxEntry.key, hid]

/-- **The index lists what was inserted**: each id once, with the offset of the first object that
has it. -/
structure Inserted (packidx : Packidx) (es : List IdxEntry) (ins : List IndexedObject) : Prop
    extends Grows packidx es where
  distinct : (es.map Prod.fst).Nodup
  first : ∀ e ∈ es, ∃ o, ins.find? (·.id = e.1) = some o ∧ o.offset = e.2
  all : ∀ o ∈ ins, Known es o.id

/-- How many different ids objects have. -/
def numIds (objects : List IndexedObject) : ℕ := (objects.map (·.id)).dedup.length

/-- Only ids that are new can make the number of ids larger. -/
theorem numIds_le_of_subset {objects objects' : List IndexedObject} (h : objects ⊆ objects') :
    numIds objects ≤ numIds objects' := by
  refine ((List.nodup_dedup _).subperm fun id hid => ?_).length_le
  obtain ⟨o, ho, rfl⟩ := List.mem_map.mp (List.mem_dedup.mp hid)
  exact List.mem_dedup.mpr (List.mem_map_of_mem (h ho))

theorem numIds_le_length (objects : List IndexedObject) : numIds objects ≤ objects.length :=
  (List.dedup_sublist _).length_le.trans_eq (List.length_map _)

/-- There is one entry for each id. -/
theorem Inserted.length_le (h : Inserted packidx es ins) : es.length ≤ numIds ins := by
  rw [← @List.length_map _ _ es Prod.fst]
  refine (h.distinct.subperm fun id hid => ?_).length_le
  obtain ⟨e, he, rfl⟩ := List.mem_map.mp hid
  obtain ⟨o, ho, -⟩ := h.first e he
  have hid : o.id = e.1 := by simpa using List.find?_some ho
  exact List.mem_dedup.mpr (hid ▸ List.mem_map_of_mem (List.mem_of_find?_eq_some ho))

/-- What was found first is still found first when more comes behind it. -/
theorem find?_concat {p : IndexedObject → Bool} {o : IndexedObject} (h : ins.find? p = some o)
    (obj : IndexedObject) : (ins ++ [obj]).find? p = some o := by
  rw [List.find?_append, h, Option.some_or]

/-- **One insertion.** -/
theorem Inserted.update (h : Inserted packidx es ins) (obj : IndexedObject)
    (hroom : HasRoom packidx obj.offset) (hes : es.length ≤ 2 ^ 30) :
    ∃ packidx' es', updatePackidx packidx obj = .ok packidx' ∧ Inserted packidx' es' (ins ++ [obj])
      ∧ ∀ off, HasRoom packidx off → HasRoom packidx' off := by
  unfold updatePackidx
  rcases findObjectIdx_spec h.toLists hes obj.id with
    ⟨hknown, hfind⟩ | ⟨hnew, left, right, hrl, hb, hfind⟩
  · rw [hfind]
    refine ⟨packidx, es, rfl, ⟨h.toGrows, h.distinct, fun e he => ?_, fun o ho => ?_⟩,
      fun _ h => h⟩
    · obtain ⟨o, ho, hoff⟩ := h.first e he
      exact ⟨o, find?_concat ho obj, hoff⟩
    · rcases List.mem_append.mp ho with ho | ho
      · exact h.all o ho
      · obtain rfl := List.mem_singleton.mp ho
        exact hknown
  · rw [hfind]
    have hperm := perm_insertAt es left.toNat obj.entry
    have hids : ((insertAt es left.toNat obj.entry).map Prod.fst).Perm
      (obj.id :: es.map Prod.fst) :=
      hperm.map Prod.fst
    refine ⟨_, insertAt es left.toNat obj.entry, rfl,
      ⟨grows_addIndexedObject h.toGrows hroom (hb.sortedBy_insertAt h.sorted hrl rfl) (by omega),
        hids.nodup_iff.mpr (List.nodup_cons.mpr ⟨fun hmem => ?_, h.distinct⟩), fun e he => ?_,
        fun o ho => ?_⟩, fun _ h => hasRoom_addIndexedObject h _ _⟩
    · obtain ⟨e, he, hid⟩ := List.mem_map.mp hmem
      exact hnew ⟨e, he, hid⟩
    · rcases List.mem_cons.mp (hperm.mem_iff.mp he) with rfl | he
      · have hnone : ins.find? (·.id = obj.id) = none :=
          List.find?_eq_none.mpr fun o ho hid => hnew (of_decide_eq_true hid ▸ h.all o ho)
        refine ⟨obj, ?_, rfl⟩
        show (ins ++ [obj]).find? (·.id = obj.id) = some obj
        rw [List.find?_append, hnone, Option.none_or, List.find?_singleton,
          if_pos (decide_eq_true rfl)]
      · obtain ⟨o, ho, hoff⟩ := h.first e he
        exact ⟨o, find?_concat ho obj, hoff⟩
    · rcases List.mem_append.mp ho with ho | ho
      · obtain ⟨e, he, hid⟩ := h.all o ho
        exact ⟨e, hperm.mem_iff.mpr (List.mem_cons_of_mem _ he), hid⟩
      · obtain rfl := List.mem_singleton.mp ho
        exact ⟨_, hperm.mem_iff.mpr List.mem_cons_self, rfl⟩

/-- **A run of insertions.** -/
theorem Inserted.updates (h : Inserted packidx es ins) {objects : List IndexedObject}
    (hroom : ∀ o ∈ objects, HasRoom packidx o.offset)
    (hlen : numIds (ins ++ objects) ≤ 2 ^ 30) :
    ∃ packidx' es', objects.foldlM updatePackidx packidx = .ok packidx'
      ∧ Inserted packidx' es' (ins ++ objects) := by
  induction objects generalizing packidx es ins with
  | nil => exact ⟨packidx, es, rfl, by rw [List.append_nil]; exact h⟩
  | cons obj objects ih =>
    have hins : es.length ≤ 2 ^ 30 :=
      h.length_le.trans ((numIds_le_of_subset (List.subset_append_left _ _)).trans hlen)
    obtain ⟨packidx₁, es₁, hupdate, h₁, hkeep⟩ := h.update obj (hroom obj List.mem_cons_self) hins
    rw [List.append_cons] at hlen
    obtain ⟨packidx', es', hrun, h'⟩ :=
      ih h₁ (fun o ho => hkeep _ (hroom o (List.mem_cons_of_mem _ ho))) hlen
    refine ⟨packidx', es', ?_, ?_⟩
    · rw [List.foldlM_cons, hupdate]
      exact hrun
    · rw [List.append_cons]
      exact h'

/-! ## The index after a run -/

/-- **The index in progress is correct** for the objects that were inserted: its ids are in
ascending order, each of them once, its fan-out table counts them, and they are those of the
objects; the slot of an id has the offset of the first object with that id; an object with an id
that is there changes nothing; and a search for a slot finds none for an id that is there, and for
any other the place where the ids before it end. -/
structure IndexInProgress (packidx : Packidx) (ins : List IndexedObject) : Prop
    extends ConsistentIdx packidx where
  slots : ∀ (i : ℕ) (id : Sha1), packidx.sortedIds[i]? = some id →
    ∃ o, ins.find? (·.id = id) = some o ∧ getObjectOffset packidx i = .ok (some o.offset)
  inserted : ∀ o ∈ ins, o.id ∈ packidx.sortedIds
  duplicate : ∀ o : IndexedObject, o.id ∈ packidx.sortedIds → updatePackidx packidx o = .ok packidx
  found : ∀ id ∈ packidx.sortedIds, findObjectIdx packidx id = .ok none
  slotOf : ∀ id ∉ packidx.sortedIds, ∃ left : ℕ, findObjectIdx packidx id = .ok (some left)
    ∧ left ≤ packidx.sortedIds.length
    ∧ ∀ (j : ℕ) (id' : Sha1), packidx.sortedIds[j]? = some id' →
      (j < left ↔ memcmp id'.val id.val = .lt)

/-- Ids are compared as the numbers that their bytes make. -/
theorem memcmp_eq_lt_iff {a b : Sha1} : memcmp a.val b.val = .lt ↔ idKey a.val < idKey b.val := by
  rcases memcmp_spec (a.2.trans b.2.symm) with ⟨hm, hk⟩ | ⟨hm, heq⟩ | ⟨hm, hk⟩
  · exact iff_of_true hm hk
  · rw [hm, heq]
    exact iff_of_false (fun h => nomatch h) (Nat.lt_irrefl _)
  · rw [hm]
    exact iff_of_false (fun h => nomatch h) (Nat.lt_asymm hk)

theorem Inserted.known_iff (h : Inserted packidx es ins) :
    Known es id ↔ id ∈ packidx.sortedIds := by
  rw [h.ids, List.mem_map]
  rfl

/-- The ids are in ascending order, and no two of them are the same. -/
theorem Inserted.consistentIdx (h : Inserted packidx es ins) : ConsistentIdx packidx where
  sorted := by
    rw [h.ids, List.pairwise_map]
    refine (h.sorted.and (List.pairwise_map.mp h.distinct)).imp fun {a b} hab => ?_
    rw [memcmp_eq_lt_iff]
    exact Nat.lt_of_le_of_ne hab.1 fun heq => hab.2 (idKey_inj heq)
  fanout_length := h.fanout_length
  fanout := by
    intro b hb
    rw [h.fanout b hb, h.ids, List.countP_map]
    rfl

/-- A finished run of insertions is an index in progress, up to 2^30 ids. -/
theorem Inserted.toIndexInProgress (h : Inserted packidx es ins) (hlen : numIds ins ≤ 2 ^ 30) :
    IndexInProgress packidx ins := by
  have hfind := findObjectIdx_spec h.toLists (h.length_le.trans hlen)
  have hfound : ∀ id ∈ packidx.sortedIds, findObjectIdx packidx id = .ok none := fun id hid =>
    (hfind id).elim And.right fun hnew => absurd (h.known_iff.mpr hid) hnew.1
  refine ⟨h.consistentIdx, fun i id hi => ?_, fun o ho => h.known_iff.mp (h.all o ho),
    fun o ho => ?_,
    hfound, fun id hid => ?_⟩
  · rw [h.ids, List.getElem?_map, Option.map_eq_some_iff] at hi
    obtain ⟨e, he, rfl⟩ := hi
    obtain ⟨o, ho, hoff⟩ := h.first e (List.mem_of_getElem? he)
    exact ⟨o, ho, by rw [hoff, h.offset_at he]⟩
  · unfold updatePackidx
    rw [hfound o.id ho]
    rfl
  · rcases hfind id with ⟨hknown, -⟩ | ⟨-, left, right, hrl, hb, hleft⟩
    · exact absurd (h.known_iff.mp hknown) hid
    · have hnonneg := hb.left_nonneg
      have hle := hb.left_le
      have hlt := hb.right_lt
      refine ⟨left.toNat, by rw [hleft, Int.toNat_of_nonneg hnonneg], ?_, fun j id' hj => ?_⟩
      · rw [h.ids, List.length_map]
        omega
      · rw [h.ids, List.getElem?_map, Option.map_eq_some_iff] at hj
        obtain ⟨e, he, rfl⟩ := hj
        obtain ⟨hjlt, rfl⟩ := List.getElem?_eq_some_iff.mp he
        rw [memcmp_eq_lt_iff]
        constructor
        · exact fun hj => hb.below j hjlt (by omega)
        · intro hkey
          by_contra hge
          exact absurd hkey (Nat.lt_asymm (hb.above j hjlt (by omega)))

/-! ## What goes wrong -/

/-- **What is listed stays listed**, and in the same order. -/
theorem sublist_updatePackidx {packidx' : Packidx} {obj : IndexedObject}
    (h : updatePackidx packidx obj = .ok packidx') :
    packidx.sortedIds.Sublist packidx'.sortedIds := by
  obtain ⟨slot, -, h⟩ := bind_eq_ok_iff.mp h
  cases slot with
  | none =>
    obtain rfl := Except.ok.inj h
    exact List.Sublist.refl _
  | some idx =>
    obtain rfl := Except.ok.inj h
    rw [sortedIds_addIndexedObject, insertAt]
    conv_lhs => rw [← List.take_append_drop idx.toNat packidx.sortedIds]
    exact (List.Sublist.refl _).append (List.sublist_cons_self _ _)

/-- Inserting ids drops none of those that were there. -/
theorem sublist_updates {packidx' : Packidx} {objects : List IndexedObject}
    (h : objects.foldlM updatePackidx packidx = .ok packidx') :
    packidx.sortedIds.Sublist packidx'.sortedIds := by
  induction objects generalizing packidx with
  | nil =>
    obtain rfl := Except.ok.inj h
    exact List.Sublist.refl _
  | cons obj objects ih =>
    rw [List.foldlM_cons] at h
    obtain ⟨packidx₁, hupdate, h⟩ := bind_eq_ok_iff.mp h
    exact (sublist_updatePackidx hupdate).trans (ih h)

/-- The ids of a correct index are those of the objects. -/
theorem IndexInProgress.length_eq (h : IndexInProgress packidx ins) :
    packidx.sortedIds.length = numIds ins := by
  refine Nat.le_antisymm (h.nodup.subperm fun id hid => ?_).length_le
    ((List.nodup_dedup _).subperm fun id hid => ?_).length_le
  · obtain ⟨i, hi⟩ := List.mem_iff_getElem?.mp hid
    obtain ⟨o, ho, -⟩ := h.slots i id hi
    have hid : o.id = id := by simpa using List.find?_some ho
    exact List.mem_dedup.mpr (hid ▸ List.mem_map_of_mem (List.mem_of_find?_eq_some ho))
  · obtain ⟨o, ho, rfl⟩ := List.mem_map.mp (List.mem_dedup.mp hid)
    exact h.inserted o ho

/-- **The last id of a larger index is taken for a new one**, or the search for it fails. -/
theorem IndexInProgress.length_le (h : IndexInProgress packidx ins)
    (hlen : packidx.sortedIds.length < 2 ^ 31) : packidx.sortedIds.length ≤ 2 ^ 30 := by
  by_contra hlt
  have hlast : packidx.sortedIds.length - 1 < packidx.sortedIds.length := by omega
  have hget := List.getElem?_eq_getElem hlast
  have hfound := h.found _ (List.getElem_mem hlast)
  obtain ⟨r, hr, hnone⟩ := bind_eq_ok_iff.mp hfound
  cases r with
  | inr left => cases Except.ok.inj hnone
  | inl i =>
    have hfind : gotPackidxGetObjectIdx packidx
        packidx.sortedIds[packidx.sortedIds.length - 1] = .ok (some i) := by
      unfold gotPackidxGetObjectIdx
      rw [hr]
      rfl
    have hspec := gotPackidxGetObjectIdx_spec (h.toConsistentIdx.lists hlen)
      packidx.sortedIds[packidx.sortedIds.length - 1]
    rw [gotPackidxGetObjectIdx_withOffsets, hfind] at hspec
    rcases hspec with ⟨j, e, hj, he, hid⟩ | ⟨hnone, -⟩ | ⟨herr, -⟩
    · obtain rfl := Option.some.inj (Except.ok.inj hj)
      rw [List.getElem?_map, Option.map_eq_some_iff] at he
      obtain ⟨id, hi, rfl⟩ := he
      have hsame := h.position_inj (hi.trans (congrArg some hid)) hget
      have hbound := lt_of_gotPackidxGetObjectIdx hfind
      omega
    · cases Except.ok.inj hnone
    · cases herr

/-! ## Runs -/

/-- **A run of insertions**: the objects of the first pass, of which those whose ids are known are
indexed first, and the objects that are inserted then, in any order.

An object is inserted once its id is known, so a pack with a number of objects that is an `int` has
no more than that of them all together. -/
structure Insertions where
  plat : Platform
  pack : Pack
  objects : List IndexedObject
  inserts : List IndexedObject
  offset_lt : ∀ o ∈ objects ++ inserts, o.offset < pack.filesize
  filesize_lt : pack.filesize < 2 ^ 63
  objects_lt : objects.length < 2 ^ 31
  length_lt : (objects.filter (·.valid)).length + inserts.length < 2 ^ 31

namespace Insertions

variable (w : Insertions)

/-- What `make_packidx` lists, in the order in which it does. -/
def listed : List IndexedObject := (w.plat.qsort w.objects).filter (·.valid)

/-- The index after the run. -/
def index : Except GotErr Packidx :=
  w.inserts.foldlM updatePackidx (makePackidx w.plat w.pack w.objects).2

theorem perm_listed : w.listed.Perm (w.objects.filter (·.valid)) :=
  (w.plat.qsort_perm w.objects).filter _

theorem hasRoom {o : IndexedObject} (ho : o ∈ w.objects ++ w.inserts) :
    HasRoom (emptyPackidx w.pack) o.offset :=
  hasRoom_emptyPackidx_of_lt (w.offset_lt o ho) w.filesize_lt

/-- **The index which the run begins with** lists the valid objects, one entry for each of them. -/
theorem grows_makePackidx :
    Grows (makePackidx w.plat w.pack w.objects).2 (w.listed.map IndexedObject.entry) := by
  have hperm := w.plat.qsort_perm w.objects
  have hsorted : SortedBy IdxEntry.key ([] ++ w.listed.map IndexedObject.entry) := by
    rw [List.nil_append, SortedBy, List.pairwise_map]
    exact List.Pairwise.filter _ (w.plat.qsort_sorted w.objects)
  have hlen : ([] : List IdxEntry).length + (w.plat.qsort w.objects).length < 2 ^ 31 := by
    rw [hperm.length_eq, List.length_nil, Nat.zero_add]
    exact w.objects_lt
  exact grows_addValidObjects (grows_emptyPackidx w.pack)
    (fun o ho => w.hasRoom (List.mem_append_left _ (hperm.mem_iff.mp ho))) hsorted hlen

/-- If no two of them share an id, it is correct. -/
theorem inserted_makePackidx (hdistinct : ((w.objects.filter (·.valid)).map (·.id)).Nodup) :
    Inserted (makePackidx w.plat w.pack w.objects).2 (w.listed.map IndexedObject.entry)
      w.listed := by
  have hids : (w.listed.map (·.id)).Nodup := (w.perm_listed.map _).nodup_iff.mpr hdistinct
  refine ⟨w.grows_makePackidx, ?_, ?_, fun o ho => ⟨o.entry, List.mem_map_of_mem ho, rfl⟩⟩
  · rw [List.map_map]
    exact hids
  · intro e he
    obtain ⟨o, ho, rfl⟩ := List.mem_map.mp he
    have hsome : (w.listed.find? (·.id = o.entry.1)).isSome :=
      List.find?_isSome.mpr ⟨o, ho, decide_eq_true rfl⟩
    obtain ⟨o', ho'⟩ := Option.isSome_iff_exists.mp hsome
    have hid : o'.id = o.entry.1 := by simpa using List.find?_some ho'
    obtain rfl := List.inj_on_of_nodup_map hids (List.mem_of_find?_eq_some ho') ho hid
    exact ⟨o', ho', rfl⟩

theorem numIds_listed : numIds (w.listed ++ w.inserts)
    = numIds (w.objects.filter (·.valid) ++ w.inserts) :=
  Nat.le_antisymm (numIds_le_of_subset (w.perm_listed.append_right _).subset)
    (numIds_le_of_subset (w.perm_listed.append_right _).symm.subset)

/-- **Objects that share an id are listed twice**, and nothing takes one of them out again. -/
theorem nodup_of_indexInProgress (hindex : w.index = .ok packidx)
    (h : IndexInProgress packidx (w.listed ++ w.inserts)) :
    ((w.objects.filter (·.valid)).map (·.id)).Nodup := by
  have hids : (makePackidx w.plat w.pack w.objects).2.sortedIds = w.listed.map (·.id) := by
    rw [w.grows_makePackidx.ids, List.map_map]
    rfl
  have hnodup := h.nodup.sublist (sublist_updates hindex)
  rw [hids] at hnodup
  exact (w.perm_listed.map _).nodup_iff.mp hnodup

/-- **When the index is correct after a run of insertions**: no two of the objects that
`make_packidx` lists share an id, and there are at most `2 ^ 30` different ids in all. -/
theorem indexInProgress_iff :
    (∃ packidx, w.index = .ok packidx ∧ IndexInProgress packidx (w.listed ++ w.inserts))
      ↔ ((w.objects.filter (·.valid)).map (·.id)).Nodup
        ∧ numIds (w.objects.filter (·.valid) ++ w.inserts) ≤ 2 ^ 30 := by
  rw [← w.numIds_listed]
  constructor
  · rintro ⟨packidx, hindex, h⟩
    refine ⟨w.nodup_of_indexInProgress hindex h, ?_⟩
    rw [← h.length_eq]
    refine h.length_le ?_
    rw [h.length_eq]
    refine (numIds_le_length _).trans_lt ?_
    rw [List.length_append, w.perm_listed.length_eq]
    exact w.length_lt
  · rintro ⟨hdistinct, hlen⟩
    obtain ⟨packidx, es, hrun, h⟩ := (w.inserted_makePackidx hdistinct).updates
      (fun o ho => hasRoom_addValidObjects (w.hasRoom (List.mem_append_right _ ho)) 0 _) hlen
    exact ⟨packidx, hrun, h.toIndexInProgress hlen⟩

end Insertions

/-! ## Two packs -/

/-- The pack whose bases come later: the blob `A` is found by the first pass, then `B` is restored
from it, and `C` from `B`, against the order of the file. -/
def laterBaseInsertions : Insertions where
  plat := laterBasePlatform
  pack := laterBaseFile
  objects := laterBaseObjects
  inserts :=
    [⟨⟨61, 1, GOT_OBJ_TYPE_REF_DELTA, 4⟩, laterBaseSha1 [98, 108, 111, 98, 32, 49, 0, 66], true⟩,
      ⟨⟨25, 1, GOT_OBJ_TYPE_REF_DELTA, 4⟩, laterBaseSha1 [98, 108, 111, 98, 32, 49, 0, 67], true⟩]
  offset_lt := by decide
  filesize_lt := laterBasePack.filesize_lt
  objects_lt := laterBasePack.length_lt
  length_lt := by decide

theorem indexInProgress_laterBase : ∃ packidx, laterBaseInsertions.index = .ok packidx
    ∧ IndexInProgress packidx (laterBaseInsertions.listed ++ laterBaseInsertions.inserts) :=
  laterBaseInsertions.indexInProgress_iff.mpr
    ⟨by decide, (numIds_le_length _).trans (by decide)⟩

/-- The blob `A` twice, and a ref delta that makes `B` of it. -/
def sameBlobTwiceFile : Pack where
  file := [80, 65, 67, 75, 0, 0, 0, 2, 0, 0, 0, 3,
    49, 120, 1, 1, 1, 0, 254, 255, 65, 0, 66, 0, 66,
    49, 120, 1, 1, 1, 0, 254, 255, 65, 0, 66, 0, 66,
    116, 140, 126, 90, 102, 127, 27, 119, 24, 71, 254, 136, 192, 28, 61, 227, 68, 19, 161, 178,
    32, 120, 1, 1, 4, 0, 251, 255, 1, 1, 1, 66, 0, 79, 0, 70,
    101, 107, 240, 23, 58, 253, 62, 71, 181, 39, 205, 32, 10, 249, 59, 181, 3, 112, 197, 31]
  mapped := true

/-- The objects after the first pass: one blob stored twice, and a delta over it. -/
def sameBlobTwiceObjects : List IndexedObject :=
  [⟨⟨12, 1, GOT_OBJ_TYPE_BLOB, 1⟩, laterBaseSha1 [98, 108, 111, 98, 32, 49, 0, 65], true⟩,
    ⟨⟨25, 1, GOT_OBJ_TYPE_BLOB, 1⟩, laterBaseSha1 [98, 108, 111, 98, 32, 49, 0, 65], true⟩,
    ⟨⟨38, 1, GOT_OBJ_TYPE_REF_DELTA, 4⟩, unknownId, false⟩]

/-- These are the objects that the first pass finds. -/
theorem read_sameBlobTwice : ∀ o ∈ sameBlobTwiceObjects,
    readPackedObject laterBasePlatform sameBlobTwiceFile o.offset = .ok o := by
  intro o ho
  simp only [sameBlobTwiceObjects, List.mem_cons, List.not_mem_nil, or_false] at ho
  rcases ho with rfl | rfl | rfl <;> rfl

/-- The insertions of this pack: the second copy is inserted a second time under the same id. -/
def sameBlobTwice : Insertions where
  plat := laterBasePlatform
  pack := sameBlobTwiceFile
  objects := sameBlobTwiceObjects
  inserts :=
    [⟨⟨38, 1, GOT_OBJ_TYPE_REF_DELTA, 4⟩, laterBaseSha1 [98, 108, 111, 98, 32, 49, 0, 66], true⟩]
  offset_lt := by decide
  filesize_lt := by decide
  objects_lt := by decide
  length_lt := by decide

/-- The id of `A` has two slots. -/
theorem sameBlobTwice_not_indexInProgress :
    ¬∃ packidx, sameBlobTwice.index = .ok packidx
      ∧ IndexInProgress packidx (sameBlobTwice.listed ++ sameBlobTwice.inserts) := by
  rintro ⟨packidx, hindex, h⟩
  exact absurd (sameBlobTwice.nodup_of_indexInProgress hindex h) (by decide)

end Got

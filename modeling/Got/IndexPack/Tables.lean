import Mathlib.Data.Nat.Bitwise
import Got.IndexPack.Objects

/-!
# The index in progress lists what was put into it

The pack index that grows in the second pass satisfies `Lists`, the condition
under which it can be searched, at every point: it holds of the index without
entries, and putting an object into its slot keeps it. The slot that
`find_object_idx` determines is the right one because of what the binary
search leaves behind when it does not find an id.
-/

namespace Got

open SortedTable

/-- The entry an object has in the index. -/
def IndexedObject.entry (o : IndexedObject) : IdxEntry := (o.id, o.offset)

/-- **The tables while they grow**: they list the entries, and new entries can
be told from the ones that are there. -/
structure Grows (packidx : Packidx) (es : List IdxEntry) : Prop extends Lists packidx es where
  large_length : ∀ large, packidx.largeOffsets = some large → large.length = packidx.nlargeobj
  nlargeobj_le : packidx.nlargeobj ≤ es.length

/-- Whether positions of this size have a place in the tables. -/
def HasRoom (packidx : Packidx) (off : ℕ) : Prop :=
  off < 2 ^ 63 ∧ (GOT_PACKIDX_OFFSET_VAL_IS_LARGE_IDX.toNat ≤ off → packidx.largeOffsets ≠ none)

/-- The index to start with: no object, and room for all. -/
theorem grows_emptyPackidx (pack : Pack) : Grows (emptyPackidx pack) [] where
  sorted := List.Pairwise.nil
  ids := rfl
  offsets := List.Forall₂.nil
  fanout_length := List.length_replicate
  fanout := by
    intro b h
    simp only [emptyPackidx, List.getElem_replicate]
    rfl
  length_lt := by decide
  large_length := by
    intro large h
    unfold emptyPackidx at h
    dsimp only at h
    split at h
    · obtain rfl := Option.some.inj h
      rfl
    · exact nomatch h
  nlargeobj_le := Nat.le_refl 0

/-- The index has room for every position in the pack file. -/
theorem hasRoom_emptyPackidx_of_lt {pack : Pack} {off : ℕ} (h : off < pack.filesize)
    (hsize : pack.filesize < 2 ^ 63) : HasRoom (emptyPackidx pack) off := by
  refine ⟨h.trans hsize, fun hle => ?_⟩
  unfold emptyPackidx
  rw [if_pos (hle.trans (Nat.le_of_lt h))]
  exact fun h => nomatch h

/-! ## Offsets -/

theorem toNat_and_val_mask (w : UInt32) :
    (w &&& GOT_PACKIDX_OFFSET_VAL_MASK).toNat = w.toNat % 2 ^ 31 := by
  rw [UInt32.toNat_and]
  exact Nat.and_two_pow_sub_one_eq_mod w.toNat 31

/-- The top bit of an offset word says that the offset is an index into the large table. -/
theorem and_large_ne_zero_iff (w : UInt32) :
    w &&& GOT_PACKIDX_OFFSET_VAL_IS_LARGE_IDX ≠ 0 ↔ 2 ^ 31 ≤ w.toNat := by
  have hbit : (w &&& GOT_PACKIDX_OFFSET_VAL_IS_LARGE_IDX).toNat
      = (w.toNat / 2 ^ 31 % 2) * 2 ^ 31 := by
    rw [UInt32.toNat_and]
    refine (Nat.and_two_pow w.toNat 31).trans ?_
    rw [Nat.testBit_eq_decide_div_mod_eq]
    rcases Nat.mod_two_eq_zero_or_one (w.toNat / 2 ^ 31) with h | h <;> rw [h] <;> rfl
  have hw := w.toNat_lt
  rw [Ne, ← UInt32.toNat_inj, hbit, UInt32.toNat_zero]
  omega

/-- An offset into the large table is marked by its top bit. -/
theorem toNat_or_large {k : ℕ} (h : k < 2 ^ 31) :
    (k.toUInt32 ||| GOT_PACKIDX_OFFSET_VAL_IS_LARGE_IDX).toNat = k + 2 ^ 31 := by
  have hk : k.toUInt32.toNat = k := Nat.mod_eq_of_lt (by omega)
  rw [UInt32.toNat_or, hk, Nat.or_comm]
  have := Nat.two_pow_add_eq_or_of_lt (i := 31) h 1
  rw [Nat.mul_one] at this
  exact this.symm.trans (Nat.add_comm _ _)

/-- A small offset stands for itself. -/
theorem offsetOf_small (packidx : Packidx) {off : ℕ} (h : off < 2 ^ 31) :
    offsetOf packidx off.toUInt32 = .ok (some off) := by
  have hoff : off.toUInt32.toNat = off := Nat.mod_eq_of_lt (by omega)
  unfold offsetOf
  rw [if_neg (by rw [and_large_ne_zero_iff, hoff]; omega), toNat_and_val_mask, hoff,
    Nat.mod_eq_of_lt h]

/-- A large offset is in the table of large offsets. -/
theorem offsetOf_large {packidx : Packidx} {large : List UInt64} {k off : ℕ}
    (hl : packidx.largeOffsets = some large) (hi : k < packidx.nlargeobj) (hk : k < 2 ^ 31)
    (hoff : off < 2 ^ 63) (hlen : k < large.length) (hat : large[k] = off.toUInt64) :
    offsetOf packidx (k.toUInt32 ||| GOT_PACKIDX_OFFSET_VAL_IS_LARGE_IDX) = .ok (some off) := by
  have hoff' : off.toUInt64.toNat = off := Nat.mod_eq_of_lt (by omega)
  have hidx : ((k.toUInt32 ||| GOT_PACKIDX_OFFSET_VAL_IS_LARGE_IDX)
      &&& GOT_PACKIDX_OFFSET_VAL_MASK).toNat = k := by
    rw [toNat_and_val_mask, toNat_or_large hk]
    omega
  unfold offsetOf
  rw [if_pos (by rw [and_large_ne_zero_iff, toNat_or_large hk]; omega), hl, hidx]
  dsimp only
  rw [if_neg (by omega), tableAt_of_lt hlen, hat]
  show Except.ok (if off.toUInt64.toNat < 2 ^ 63 then some off.toUInt64.toNat else none) = _
  rw [hoff', if_pos hoff]

/-- Offsets that could be read can still be read after another large offset
was added. -/
theorem offsetOf_mono {packidx packidx' : Packidx} {w : UInt32} {off : ℕ}
    (hlen : ∀ large, packidx.largeOffsets = some large → large.length = packidx.nlargeobj)
    (hle : packidx.nlargeobj ≤ packidx'.nlargeobj)
    (hlarge : ∀ large, packidx.largeOffsets = some large →
      ∃ more, packidx'.largeOffsets = some (large ++ more))
    (h : offsetOf packidx w = .ok (some off)) : offsetOf packidx' w = .ok (some off) := by
  unfold offsetOf at h ⊢
  split
  · next hw =>
    rw [if_pos hw] at h
    cases hl : packidx.largeOffsets with
    | none => rw [hl] at h; exact nomatch h
    | some large =>
      obtain ⟨more, hmore⟩ := hlarge large hl
      rw [hl] at h
      rw [hmore]
      dsimp only at h ⊢
      split at h
      · exact nomatch h
      · next hidx =>
        have hlt : (w &&& GOT_PACKIDX_OFFSET_VAL_MASK).toNat < large.length := by
          rw [hlen large hl]
          exact Nat.not_le.mp hidx
        rw [if_neg (by omega), tableAt_of_lt (by rw [List.length_append]; omega),
          List.getElem_append_left hlt]
        rw [tableAt_of_lt hlt] at h
        exact h
  · next hw =>
    rw [if_neg hw] at h
    exact h

/-! ## Putting an object into its slot -/

theorem forall₂_insertAt {α β : Type} {R : α → β → Prop} {as : List α} {bs : List β}
    (h : List.Forall₂ R as bs) (n : ℕ) {a : α} {b : β} (hab : R a b) :
    List.Forall₂ R (insertAt as n a) (insertAt bs n b) :=
  List.rel_append (List.forall₂_take n h) (List.Forall₂.cons hab (List.forall₂_drop n h))

theorem sortedIds_addIndexedObject (packidx : Packidx) (idx : ℕ) (obj : IndexedObject) :
    (addIndexedObject packidx idx obj).sortedIds = insertAt packidx.sortedIds idx obj.id := rfl

/-- The large offsets after an object was added. -/
theorem largeOffsets_addIndexedObject {packidx : Packidx} (idx : ℕ) (obj : IndexedObject)
    {large : List UInt64} (h : packidx.largeOffsets = some large) :
    ∃ more, (addIndexedObject packidx idx obj).largeOffsets = some (large ++ more)
      ∧ (addIndexedObject packidx idx obj).nlargeobj = packidx.nlargeobj + more.length := by
  unfold addIndexedObject
  by_cases hs : obj.offset < GOT_PACKIDX_OFFSET_VAL_IS_LARGE_IDX.toNat
  · exact ⟨[], by simp [hs, h], by simp [hs]⟩
  · exact ⟨[obj.offset.toUInt64], by simp [hs, h], by simp [hs]⟩

/-- The offset of the object that was added can be read. -/
theorem offsetOf_addIndexedObject {packidx : Packidx} {es : List IdxEntry}
    (h : Grows packidx es) (idx : ℕ) (obj : IndexedObject) (hroom : HasRoom packidx obj.offset) :
    offsetOf (addIndexedObject packidx idx obj)
      (if obj.offset < GOT_PACKIDX_OFFSET_VAL_IS_LARGE_IDX.toNat then obj.offset.toUInt32
        else packidx.nlargeobj.toUInt32 ||| GOT_PACKIDX_OFFSET_VAL_IS_LARGE_IDX)
      = .ok (some obj.offset) := by
  split
  · next hs => exact offsetOf_small _ hs
  · next hs =>
    obtain ⟨large, hl⟩ := Option.ne_none_iff_exists'.mp (hroom.2 (Nat.not_lt.mp hs))
    have hlen := h.large_length large hl
    have hle := h.nlargeobj_le
    have hlt := h.length_lt
    have hl' : (addIndexedObject packidx idx obj).largeOffsets
        = some (large ++ [obj.offset.toUInt64]) := by simp [addIndexedObject, hs, hl]
    refine offsetOf_large hl' ?_ (by omega) hroom.1 ?_ ?_
    · simp [addIndexedObject, hs]
    · simp [hlen]
    · simp [← hlen]

/-- **An object that is put into its slot is listed from then on.** -/
theorem grows_addIndexedObject {packidx : Packidx} {es : List IdxEntry} (h : Grows packidx es)
    {idx : ℕ} {obj : IndexedObject} (hroom : HasRoom packidx obj.offset)
    (hsorted : SortedBy IdxEntry.key (insertAt es idx obj.entry))
    (hlen : es.length + 1 < 2 ^ 31) :
    Grows (addIndexedObject packidx idx obj) (insertAt es idx obj.entry) where
  sorted := hsorted
  ids := by
    rw [sortedIds_addIndexedObject, h.ids]
    exact map_insertAt Prod.fst es idx obj.entry
  offsets := by
    refine forall₂_insertAt (h.offsets.imp (fun w e he => ?_)) idx
      (offsetOf_addIndexedObject h idx obj hroom)
    refine offsetOf_mono h.large_length ?_ (fun large hl => ?_) he
    · unfold addIndexedObject
      dsimp only
      split <;> omega
    · obtain ⟨more, hmore, -⟩ := largeOffsets_addIndexedObject idx obj hl
      exact ⟨more, hmore⟩
  fanout_length := by
    unfold addIndexedObject
    rw [List.length_mapIdx, h.fanout_length]
  fanout := by
    intro b hb
    have hb' : b < packidx.fanoutTable.length := by
      unfold addIndexedObject at hb
      rwa [List.length_mapIdx] at hb
    have hcount := h.fanout b hb'
    have hle : es.countP (IdxEntry.upTo b) ≤ es.length := List.countP_le_length
    have hget : (addIndexedObject packidx idx obj).fanoutTable[b]
        = if (obj.id.val.headD 0).toNat ≤ b then packidx.fanoutTable[b] + 1
          else packidx.fanoutTable[b] := List.getElem_mapIdx
    have hu : IdxEntry.upTo b obj.entry = decide ((obj.id.val.headD 0).toNat ≤ b) := rfl
    rw [(perm_insertAt es idx obj.entry).countP_eq, List.countP_cons, hu, hget]
    by_cases hle' : (obj.id.val.headD 0).toNat ≤ b
    · rw [if_pos hle', if_pos (decide_eq_true hle'), UInt32.toNat_add, hcount]
      exact Nat.mod_eq_of_lt (by rw [UInt32.toNat_one]; omega)
    · rw [if_neg hle', if_neg (fun h => hle' (of_decide_eq_true h)), hcount]
      rfl
  length_lt := by
    rw [(perm_insertAt es idx obj.entry).length_eq]
    exact hlen
  large_length := by
    intro large hl
    cases hl₀ : packidx.largeOffsets with
    | none =>
      unfold addIndexedObject at hl
      rw [hl₀] at hl
      dsimp only at hl
      split at hl <;> exact nomatch hl
    | some large₀ =>
      obtain ⟨more, hmore, hn⟩ := largeOffsets_addIndexedObject idx obj hl₀
      rw [hmore] at hl
      rw [← Option.some.inj hl, hn, List.length_append, h.large_length large₀ hl₀]
  nlargeobj_le := by
    have := h.nlargeobj_le
    rw [(perm_insertAt es idx obj.entry).length_eq, List.length_cons]
    unfold addIndexedObject
    dsimp only
    split <;> omega

/-- Adding an object takes no room away. -/
theorem hasRoom_addIndexedObject {packidx : Packidx} {off : ℕ} (h : HasRoom packidx off)
    (idx : ℕ) (obj : IndexedObject) : HasRoom (addIndexedObject packidx idx obj) off := by
  refine ⟨h.1, fun hoff hnone => ?_⟩
  obtain ⟨large, hl⟩ := Option.ne_none_iff_exists'.mp (h.2 hoff)
  obtain ⟨more, hmore, -⟩ := largeOffsets_addIndexedObject idx obj hl
  rw [hmore] at hnone
  exact nomatch hnone

/-- **The index of the valid objects** lists them, in the order in which they
are sorted. -/
theorem grows_addValidObjects {objects : List IndexedObject} {packidx : Packidx}
    {es : List IdxEntry} (h : Grows packidx es)
    (hroom : ∀ o ∈ objects, HasRoom packidx o.offset)
    (hsorted : SortedBy IdxEntry.key (es ++ (objects.filter (·.valid)).map IndexedObject.entry))
    (hlen : es.length + objects.length < 2 ^ 31) :
    Grows (addValidObjects es.length objects packidx)
      (es ++ (objects.filter (·.valid)).map IndexedObject.entry) := by
  induction objects generalizing packidx es with
  | nil => rw [List.filter_nil, List.map_nil, List.append_nil]; exact h
  | cons obj objects ih =>
    rw [List.length_cons] at hlen
    rw [addValidObjects]
    have hroom' : ∀ o ∈ objects, HasRoom packidx o.offset :=
      fun o ho => hroom o (List.mem_cons_of_mem obj ho)
    cases hv : obj.valid with
    | false =>
      rw [List.filter_cons_of_neg (by simp [hv])] at hsorted ⊢
      exact ih h hroom' hsorted (by omega)
    | true =>
      rw [List.filter_cons_of_pos (by simp [hv]), List.map_cons, List.append_cons] at hsorted ⊢
      have hadd : Grows (addIndexedObject packidx es.length obj) (es ++ [obj.entry]) := by
        rw [← insertAt_length]
        refine grows_addIndexedObject h (hroom obj List.mem_cons_self) ?_ (by omega)
        rw [insertAt_length]
        exact (List.pairwise_append.mp hsorted).1
      have hind := ih hadd
        (fun o ho => hasRoom_addIndexedObject (hroom' o ho) es.length obj) hsorted
        (by rw [List.length_append, List.length_singleton]; omega)
      rw [List.length_append, List.length_singleton] at hind
      exact hind

/-- Adding an object keeps room for those that are still to be added. -/
theorem hasRoom_addValidObjects {packidx : Packidx} {off : ℕ} (h : HasRoom packidx off) (idx : ℕ)
    (objects : List IndexedObject) : HasRoom (addValidObjects idx objects packidx) off := by
  induction objects generalizing idx packidx with
  | nil => exact h
  | cons obj objects ih =>
    rw [addValidObjects]
    split
    · exact ih (hasRoom_addIndexedObject h idx obj) (idx + 1)
    · exact ih h idx

/-- **Updating the index**: an object that is not indexed yet is listed from
then on; for one that is, nothing changes; and the only error is an access out
of bounds in a table that is too large. -/
theorem updatePackidx_spec {packidx : Packidx} {es : List IdxEntry} (h : Grows packidx es)
    (obj : IndexedObject) (hroom : HasRoom packidx obj.offset) (hlen : es.length + 1 < 2 ^ 31) :
    (∃ packidx' es', updatePackidx packidx obj = .ok packidx' ∧ Grows packidx' es'
        ∧ (∀ off, HasRoom packidx off → HasRoom packidx' off)
        ∧ (es'.Perm (obj.entry :: es) ∨ (es' = es ∧ ∃ e ∈ es, e.1 = obj.id)))
      ∨ (updatePackidx packidx obj = .error .outOfMap ∧ 2 ^ 30 < es.length) := by
  have hs := searchPackidx_spec h.toLists obj.id
  unfold updatePackidx findObjectIdx
  cases hr : searchPackidx packidx obj.id with
  | error e =>
    rw [hr] at hs
    obtain ⟨rfl, hlen⟩ := hs
    exact Or.inr ⟨rfl, hlen⟩
  | ok r =>
    rw [hr] at hs
    left
    cases r with
    | inl i =>
      obtain ⟨e, he, hid⟩ := hs
      exact ⟨packidx, es, rfl, h, fun _ h => h,
        Or.inr ⟨rfl, e, List.mem_of_getElem? he, hid⟩⟩
    | inr left =>
      obtain ⟨right, hrl, hb⟩ := hs
      exact ⟨_, insertAt es left.toNat obj.entry, rfl,
        grows_addIndexedObject h hroom (hb.sortedBy_insertAt h.sorted hrl rfl) hlen,
        fun _ h => hasRoom_addIndexedObject h _ _, Or.inl (perm_insertAt _ _ _)⟩

end Got

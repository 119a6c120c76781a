import Got.Endian
import Got.Lib.SortedTable
import Got.Pack.Packfile

/-!
# Pack indexes

A pack index lists the ids of the objects in a pack file in ascending order,
and beside it their positions in the pack file. A fan-out table says how many
of the ids begin with a byte less than or equal to a given one. Positions
from 2 GB on are in a table of their own.

Ids are found by binary search, in `int` arithmetic. `Lists` says what the
tables of an index have to be for that to work, and `searchIds_spec` that it
works then, for as long as the sum of two positions is an `int`.
-/

namespace Got

open SortedTable

/-- The tables of an open pack index, in the byte order of the host. -/
structure Packidx where
  /-- Entry `b` counts the ids whose first byte is at most `b`. -/
  fanoutTable : List UInt32
  sortedIds : List Sha1
  offsets : List UInt32
  largeOffsets : Option (List UInt64)
  nlargeobj : ℕ

def GOT_PACKIDX_OFFSET_VAL_MASK : UInt32 := 0x7fffffff
def GOT_PACKIDX_OFFSET_VAL_IS_LARGE_IDX : UInt32 := 0x80000000

/-- Read an entry of a table. -/
def tableAt {α : Type} (table : List α) (i : ℤ) : Except GotErr α :=
  match if i < 0 then none else table[i.toNat]? with
  | some x => .ok x
  | none => .error .outOfMap

/-- The position for which an entry of the table of offsets stands. -/
def offsetOf (packidx : Packidx) (offset : UInt32) : Except GotErr (Option ℕ) :=
  if offset &&& GOT_PACKIDX_OFFSET_VAL_IS_LARGE_IDX ≠ 0 then
    let idx := (offset &&& GOT_PACKIDX_OFFSET_VAL_MASK).toNat
    match packidx.largeOffsets with
    | none => .ok none
    | some largeOffsets =>
      if packidx.nlargeobj ≤ idx then .ok none
      else do
        let loffset ← tableAt largeOffsets idx
        return if loffset.toNat < 2 ^ 63 then some loffset.toNat else none
  else .ok (some (offset &&& GOT_PACKIDX_OFFSET_VAL_MASK).toNat)

/-- The position of an object in the pack file, or none if the index does not
say. -/
def getObjectOffset (packidx : Packidx) (idx : ℤ) : Except GotErr (Option ℕ) := do
  let offset ← tableAt packidx.offsets idx
  offsetOf packidx offset

/-- The value of an `int` that was computed as `i`. -/
def toInt32 (i : ℤ) : ℤ := i.bmod (2 ^ 32)

/-- **The binary search**: the position of the id, or the position at which
the search ends. The range gets shorter with every round, so its length is
enough fuel. -/
def searchIds (packidx : Packidx) (id : Sha1) : ℕ → ℤ → ℤ → Except GotErr (ℕ ⊕ ℤ)
  | 0, left, _ => .ok (.inr left)
  | fuel + 1, left, right =>
    if left ≤ right then do
      let i := (toInt32 (left + right)).tdiv 2
      let oid ← tableAt packidx.sortedIds i
      match memcmp id.val oid.val with
      | .eq => return .inl i.toNat
      | .gt => searchIds packidx id fuel (i + 1) right
      | .lt => searchIds packidx id fuel left (i - 1)
    else .ok (.inr left)

/-- Where the ids that begin with a byte start. -/
def firstIdx (packidx : Packidx) (id0 : UInt8) : Except GotErr ℤ :=
  if 0 < id0 then do
    let n ← tableAt packidx.fanoutTable (id0.toNat - 1 : ℤ)
    return toInt32 n.toNat
  else .ok 0

/-- Search among the ids that begin with the same byte, and those behind
them. -/
def searchPackidx (packidx : Packidx) (id : Sha1) : Except GotErr (ℕ ⊕ ℤ) := do
  let totobj ← tableAt packidx.fanoutTable 0xff
  let right := toInt32 (totobj - 1).toNat
  let left ← firstIdx packidx (id.val.headD 0)
  searchIds packidx id (right - left + 1).toNat left right

/-- **Find an object id in a pack index.** -/
def gotPackidxGetObjectIdx (packidx : Packidx) (id : Sha1) : Except GotErr (Option ℕ) := do
  match ← searchPackidx packidx id with
  | .inl i => return some i
  | .inr _ => return none

/-! ## Ids as numbers -/

/-- The higher digit decides. -/
theorem lt_of_digit_lt {x y m u v : ℕ} (h : x < y) (hu : u < m) : x * m + u < y * m + v := by
  have hmul : (x + 1) * m ≤ y * m := Nat.mul_le_mul_right m h
  rw [Nat.add_mul, Nat.one_mul] at hmul
  omega

/-- **Comparing ids is comparing numbers.** -/
theorem memcmp_spec {a b : Bytes} (h : a.length = b.length) :
    (memcmp a b = .lt ∧ idKey a < idKey b) ∨ (memcmp a b = .eq ∧ a = b)
      ∨ (memcmp a b = .gt ∧ idKey b < idKey a) := by
  induction a generalizing b with
  | nil =>
    obtain rfl : b = [] := List.length_eq_zero_iff.mp h.symm
    exact Or.inr (Or.inl ⟨rfl, rfl⟩)
  | cons x as ih =>
    match b, h with
    | y :: bs, h =>
      have hlen : as.length = bs.length := Nat.succ.inj h
      rw [memcmp, idKey, idKey, hlen]
      rcases Nat.lt_trichotomy x.toNat y.toNat with hlt | heq | hgt
      · exact Or.inl ⟨if_pos (UInt8.lt_iff_toNat_lt.mpr hlt),
          lt_of_digit_lt hlt (hlen ▸ idKey_lt as)⟩
      · obtain rfl := UInt8.toNat_inj.mp heq
        have hirr : ¬x < x := fun h => Nat.lt_irrefl _ (UInt8.lt_iff_toNat_lt.mp h)
        rw [if_neg hirr, if_neg hirr]
        rcases ih hlen with ⟨hm, hk⟩ | ⟨hm, rfl⟩ | ⟨hm, hk⟩
        · exact Or.inl ⟨hm, Nat.add_lt_add_left hk _⟩
        · exact Or.inr (Or.inl ⟨hm, rfl⟩)
        · exact Or.inr (Or.inr ⟨hm, Nat.add_lt_add_left hk _⟩)
      · have hnlt : ¬x < y := fun h => Nat.lt_asymm hgt (UInt8.lt_iff_toNat_lt.mp h)
        exact Or.inr (Or.inr ⟨by rw [if_neg hnlt, if_pos (UInt8.lt_iff_toNat_lt.mpr hgt)],
          lt_of_digit_lt hgt (idKey_lt bs)⟩)

/-- The first byte of an id is a matter of its number. -/
theorem headD_le_of_idKey_le {a b : Sha1} (h : idKey a.val ≤ idKey b.val) :
    a.val.headD 0 ≤ b.val.headD 0 := by
  obtain ⟨a, ha⟩ := a
  obtain ⟨b, hb⟩ := b
  match a, b, ha, hb with
  | x :: as, y :: bs, ha, hb =>
    have hlen : as.length = bs.length := Nat.succ.inj (ha.trans hb.symm)
    rw [UInt8.le_iff_toNat_le]
    by_contra hlt
    refine absurd h (Nat.not_le.mpr ?_)
    show idKey (y :: bs) < idKey (x :: as)
    rw [idKey, idKey, hlen]
    exact lt_of_digit_lt (Nat.not_le.mp hlt) (idKey_lt bs)

/-! ## Finding ids -/

/-- An id and the position of its object. -/
abbrev IdxEntry := Sha1 × ℕ

/-- The number by which entries are sorted. -/
def IdxEntry.key (e : IdxEntry) : ℕ := idKey e.1.val

/-- Whether the first byte of the id of an entry is at most `b`. -/
def IdxEntry.upTo (b : ℕ) (e : IdxEntry) : Bool := (e.1.val.headD 0).toNat ≤ b

/-- **The tables of a pack index list entries**: the ids in ascending order,
for each of them its position, and for each byte the number of ids whose
first byte is at most that. -/
structure Lists (packidx : Packidx) (es : List IdxEntry) : Prop where
  sorted : SortedBy IdxEntry.key es
  ids : packidx.sortedIds = es.map Prod.fst
  offsets : List.Forall₂ (fun w e => offsetOf packidx w = .ok (some e.2)) packidx.offsets es
  fanout_length : packidx.fanoutTable.length = 256
  fanout : ∀ (b : ℕ) (h : b < packidx.fanoutTable.length),
    (packidx.fanoutTable[b]).toNat = es.countP (IdxEntry.upTo b)
  length_lt : es.length < 2 ^ 31

theorem tableAt_of_lt {α : Type} {table : List α} {i : ℕ} (h : i < table.length) :
    tableAt table i = .ok table[i] := by
  rw [tableAt, if_neg (by omega), Int.toNat_natCast, List.getElem?_eq_getElem h]

theorem tableAt_of_neg {α : Type} {table : List α} {i : ℤ} (h : i < 0) :
    tableAt table i = .error .outOfMap := by
  rw [tableAt, if_pos h]

theorem toInt32_of_lt {i : ℤ} (h0 : 0 ≤ i) (h : i < 2 ^ 31) : toInt32 i = i := by
  show (if i % 4294967296 < (4294967296 + 1) / 2 then i % 4294967296
    else i % 4294967296 - 4294967296) = i
  split <;> omega

/-- The middle of two positions whose sum is an `int`. -/
theorem middle_of_lt {left right : ℤ} (h0 : 0 ≤ left) (hle : left ≤ right)
    (h : left + right < 2 ^ 31) :
    ∃ i : ℕ, (toInt32 (left + right)).tdiv 2 = i ∧ left ≤ i ∧ (i : ℤ) ≤ right := by
  refine ⟨((left + right) / 2).toNat, ?_⟩
  rw [toInt32_of_lt (by omega) h, Int.tdiv_eq_ediv_of_nonneg (by omega)]
  omega

/-- The sum of two positions is not always an `int`. -/
theorem middle_of_ge {i : ℤ} (h0 : 2 ^ 31 ≤ i) (h : i < 2 ^ 32 - 1) :
    (toInt32 i).tdiv 2 < 0 := by
  have hneg : ∃ n : ℕ, toInt32 i = -(n : ℤ) ∧ 2 ≤ n := by
    refine ⟨(4294967296 - i).toNat, ?_⟩
    show (if i % 4294967296 < (4294967296 + 1) / 2 then i % 4294967296
      else i % 4294967296 - 4294967296) = _ ∧ _
    split <;> omega
  obtain ⟨n, hn, h2⟩ := hneg
  rw [hn, Int.neg_tdiv, Int.tdiv_eq_ediv_of_nonneg (by omega)]
  omega

/-- What a search comes to: an entry with the id, or the place where it
belongs, or an access out of bounds in a table that is too large. -/
def SearchResult (es : List IdxEntry) (id : Sha1) : Except GotErr (ℕ ⊕ ℤ) → Prop
  | .ok (.inl i) => ∃ e, es[i]? = some e ∧ e.1 = id
  | .ok (.inr left) => ∃ right, right < left ∧ Brackets IdxEntry.key es (idKey id.val) left right
  | .error e => e = .outOfMap ∧ 2 ^ 30 < es.length

/-- **The search finds what is there**, for as long as the sum of two
positions is an `int`. -/
theorem searchIds_spec {packidx : Packidx} {es : List IdxEntry} (h : Lists packidx es)
    {id : Sha1} {fuel : ℕ} {left right : ℤ}
    (hb : Brackets IdxEntry.key es (idKey id.val) left right)
    (hfuel : (right - left + 1).toNat ≤ fuel) :
    SearchResult es id (searchIds packidx id fuel left right) := by
  induction fuel generalizing left right with
  | zero => exact ⟨right, by omega, hb⟩
  | succ fuel ih =>
    rw [searchIds]
    split
    · next hle =>
      have hl := hb.left_nonneg
      have hr := hb.right_lt
      have hlen := h.length_lt
      rcases lt_or_ge (left + right) (2 ^ 31) with hsmall | hbig
      · obtain ⟨i, hi, hli, hir⟩ := middle_of_lt hl hle hsmall
        have hilen : i < es.length := by omega
        have hat : tableAt packidx.sortedIds i = .ok es[i].1 := by
          rw [tableAt_of_lt (by rw [h.ids, List.length_map]; exact hilen)]
          simp only [h.ids, List.getElem_map]
        dsimp only
        rw [hi, hat]
        show SearchResult es id (match memcmp id.val es[i].1.val with
          | .eq => .ok (.inl (i : ℤ).toNat)
          | .gt => searchIds packidx id fuel (i + 1) right
          | .lt => searchIds packidx id fuel left (i - 1))
        rcases memcmp_spec (id.2.trans es[i].1.2.symm) with ⟨hm, hk⟩ | ⟨hm, heq⟩ | ⟨hm, hk⟩
        · rw [hm]
          exact ih (hb.narrow_right h.sorted hilen hli hk) (by omega)
        · rw [hm]
          exact ⟨es[i], List.getElem?_eq_getElem hilen, Subtype.ext heq.symm⟩
        · rw [hm]
          exact ih (hb.narrow_left h.sorted hilen hir hk) (by omega)
      · dsimp only
        rw [tableAt_of_neg (middle_of_ge hbig (by omega))]
        exact ⟨rfl, by omega⟩
    · next hgt => exact ⟨right, by omega, hb⟩

theorem upTo_of_key_le {b : ℕ} {e e' : IdxEntry} (h : e.key ≤ e'.key) (hu : e'.upTo b) :
    e.upTo b := by
  have hle := UInt8.le_iff_toNat_le.mp (headD_le_of_idKey_le h)
  simp only [IdxEntry.upTo, decide_eq_true_eq] at hu ⊢
  omega

/-- Entry `b` of the fan-out table, where it is read. -/
theorem Lists.fanout_at {packidx : Packidx} {es : List IdxEntry} (h : Lists packidx es) {b : ℕ}
    (hb : b < 256) : ∃ n : UInt32, tableAt packidx.fanoutTable b = .ok n
      ∧ n.toNat = es.countP (IdxEntry.upTo b) :=
  have hlt : b < packidx.fanoutTable.length := by rw [h.fanout_length]; exact hb
  ⟨_, tableAt_of_lt hlt, h.fanout b hlt⟩

/-- The position of an entry can be read. -/
theorem Lists.offset_at {packidx : Packidx} {es : List IdxEntry} (h : Lists packidx es) {i : ℕ}
    {e : IdxEntry} (he : es[i]? = some e) : getObjectOffset packidx i = .ok (some e.2) := by
  obtain ⟨hi, rfl⟩ := List.getElem?_eq_some_iff.mp he
  have hi' : i < packidx.offsets.length := by rw [h.offsets.length_eq]; exact hi
  rw [getObjectOffset, tableAt_of_lt hi', ok_bind]
  exact h.offsets.get hi' hi

/-- All entries are counted by the last entry of the fan-out table. -/
theorem countP_upTo_last (es : List IdxEntry) : es.countP (IdxEntry.upTo 255) = es.length := by
  rw [List.countP_eq_length]
  intro e _
  have := (e.1.val.headD 0).toNat_lt
  simp only [IdxEntry.upTo, decide_eq_true_eq]
  omega

/-- Where the search begins: behind the ids with a smaller first byte. -/
theorem firstIdx_spec {packidx : Packidx} {es : List IdxEntry} (h : Lists packidx es)
    (id : Sha1) : ∃ left : ℕ, firstIdx packidx (id.val.headD 0) = .ok (left : ℤ)
      ∧ left ≤ es.length
      ∧ ∀ (j : ℕ) (hj : j < es.length), j < left → es[j].key < idKey id.val := by
  have hlt := (id.val.headD 0).toNat_lt
  unfold firstIdx
  split
  · next hpos =>
    have hpos := UInt8.lt_iff_toNat_lt.mp hpos
    obtain ⟨n, hn, hcount⟩ := h.fanout_at (b := (id.val.headD 0).toNat - 1) (by omega)
    have hidx : ((id.val.headD 0).toNat - 1 : ℤ) = ((id.val.headD 0).toNat - 1 : ℕ) := by
      have : (0 : UInt8).toNat = 0 := rfl
      omega
    have hle : n.toNat ≤ es.length := hcount ▸ List.countP_le_length
    have hlen := h.length_lt
    refine ⟨n.toNat, ?_, hle, fun j hj hjn => ?_⟩
    · rw [hidx, hn]
      show Except.ok (toInt32 n.toNat) = _
      rw [toInt32_of_lt (by omega) (by omega)]
    · rw [hcount, h.sorted.lt_countP_iff (fun _ _ => upTo_of_key_le) hj] at hjn
      by_contra hge
      -- the first byte would not be smaller
      have hhead := UInt8.le_iff_toNat_le.mp
        (headD_le_of_idKey_le (a := id) (b := es[j].1) (Nat.not_lt.mp hge))
      simp only [IdxEntry.upTo, decide_eq_true_eq] at hjn
      have : (0 : UInt8).toNat = 0 := rfl
      omega
  · exact ⟨0, rfl, Nat.zero_le _, fun j _ hj => absurd hj (Nat.not_lt_zero j)⟩

/-- The last position of a table, as the code computes it from its length. -/
theorem toInt32_pred {n : UInt32} {len : ℕ} (hn : n.toNat = len) (hlen : len < 2 ^ 31) :
    toInt32 (n - 1).toNat = (len : ℤ) - 1 := by
  cases len with
  | zero =>
    obtain rfl : n = 0 := UInt32.toNat_inj.mp hn
    decide
  | succ len =>
    have hsub : (n - 1).toNat = len := by
      rw [UInt32.toNat_sub_of_le n 1 (UInt32.le_iff_toNat_le.mpr
        (by rw [hn]; exact Nat.succ_pos _)), hn]
      rfl
    rw [hsub, toInt32_of_lt (by omega) (by omega)]
    omega

/-- **A search of the whole index.** -/
theorem searchPackidx_spec {packidx : Packidx} {es : List IdxEntry} (h : Lists packidx es)
    (id : Sha1) : SearchResult es id (searchPackidx packidx id) := by
  obtain ⟨n, hn, hcount⟩ := h.fanout_at (b := 255) (by omega)
  obtain ⟨left, hleft, hle, hbelow⟩ := firstIdx_spec h id
  rw [countP_upTo_last] at hcount
  rw [Nat.cast_ofNat] at hn
  unfold searchPackidx
  rw [hn, ok_bind]
  dsimp only
  rw [hleft, ok_bind, toInt32_pred hcount h.length_lt]
  refine searchIds_spec h ⟨by omega, by omega, by omega, ?_, ?_⟩ (le_refl _)
  · exact fun j hj hjl => hbelow j hj (by omega)
  · exact fun j hj hjr => absurd hjr (by omega)

theorem idKey_inj {a b : Sha1} (h : idKey a.val = idKey b.val) : a = b := by
  rcases memcmp_spec (a.2.trans b.2.symm) with ⟨-, hk⟩ | ⟨-, heq⟩ | ⟨-, hk⟩
  · exact absurd h (ne_of_lt hk)
  · exact Subtype.ext heq
  · exact absurd h (ne_of_gt hk)

/-- **Looking up an id**: it is found if it is there, and not found only if it
is not there. -/
theorem gotPackidxGetObjectIdx_spec {packidx : Packidx} {es : List IdxEntry}
    (h : Lists packidx es) (id : Sha1) :
    (∃ i e, gotPackidxGetObjectIdx packidx id = .ok (some i) ∧ es[i]? = some e ∧ e.1 = id)
      ∨ (gotPackidxGetObjectIdx packidx id = .ok none ∧ ∀ e ∈ es, e.1 ≠ id)
      ∨ (gotPackidxGetObjectIdx packidx id = .error .outOfMap ∧ 2 ^ 30 < es.length) := by
  have hs := searchPackidx_spec h id
  unfold gotPackidxGetObjectIdx
  cases hr : searchPackidx packidx id with
  | error e =>
    rw [hr] at hs
    obtain ⟨rfl, hlen⟩ := hs
    exact Or.inr (Or.inr ⟨rfl, hlen⟩)
  | ok r =>
    rw [hr] at hs
    cases r with
    | inl i =>
      obtain ⟨e, he, hid⟩ := hs
      exact Or.inl ⟨i, e, rfl, he, hid⟩
    | inr left =>
      obtain ⟨right, hrl, hb⟩ := hs
      exact Or.inr (Or.inl ⟨rfl, fun e he hid => hb.not_mem hrl e he (by rw [IdxEntry.key, hid])⟩)

end Got

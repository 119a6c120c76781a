import Got.Pack.Packidx

/-!
# Searching a pack index

`got_packidx_get_object_idx` halves the range of positions between the bounds that the
fan-out table gives, in `int` arithmetic. That finds every id, and stops at every id that
is not there, in an index of up to `2 ^ 30` objects (`findsIds_of_le`). The middle of a
range which the code computes is never beyond `2 ^ 30 - 1`, as the sum that it halves is an
`int`, so the last id of a larger index is never compared with (`not_findsIds_of_lt`).
-/

namespace Got

open SortedTable

/-- **A pack index is consistent**: its ids are in ascending order, and its fan-out table
counts them by their first byte. -/
structure ConsistentIdx (packidx : Packidx) : Prop where
  sorted : packidx.sortedIds.Pairwise fun a b => memcmp a.val b.val = .lt
  fanout_length : packidx.fanoutTable.length = 256
  fanout : ∀ (b : ℕ) (h : b < packidx.fanoutTable.length), (packidx.fanoutTable[b]).toNat
    = packidx.sortedIds.countP fun id => (id.val.headD 0).toNat ≤ b

/-- The search with a number of rounds added to those that the length of the range allows for. -/
def searchPackidxLonger (packidx : Packidx) (id : Sha1) (more : ℕ) : Except GotErr (ℕ ⊕ ℤ) := do
  let totobj ← tableAt packidx.fanoutTable 0xff
  let right := toInt32 (totobj - 1).toNat
  let left ← firstIdx packidx (id.val.headD 0)
  searchIds packidx id ((right - left + 1).toNat + more) left right

/-- **The search is right**: an id of the index is found at its position, an id which is not in the
index is not found, and the loop ends within the rounds that the model allows for. -/
structure FindsIds (packidx : Packidx) : Prop where
  found : ∀ (i : ℕ) (id : Sha1), packidx.sortedIds[i]? = some id →
    gotPackidxGetObjectIdx packidx id = .ok (some i)
  absent : ∀ id ∉ packidx.sortedIds, gotPackidxGetObjectIdx packidx id = .ok none
  ends : ∀ id more, searchPackidxLonger packidx id more = searchPackidx packidx id

variable {packidx : Packidx} {id : Sha1}

/-! ## Only ids and fan-out matter -/

/-- The index with other offsets. -/
def withOffsets (packidx : Packidx) (offsets : List UInt32) : Packidx := { packidx with offsets }

/-- The search for an id does not look at the offsets. -/
theorem searchIds_withOffsets (packidx : Packidx) (offsets : List UInt32) (id : Sha1) (fuel : ℕ)
    (left right : ℤ) : searchIds (withOffsets packidx offsets) id fuel left right
      = searchIds packidx id fuel left right := by
  induction fuel generalizing left right with
  | zero => rfl
  | succ fuel ih =>
    rw [searchIds, searchIds]
    simp only [ih]
    rfl

/-- An id is looked up without a look at the offsets. -/
theorem gotPackidxGetObjectIdx_withOffsets (packidx : Packidx) (offsets : List UInt32) (id : Sha1) :
    gotPackidxGetObjectIdx (withOffsets packidx offsets) id
      = gotPackidxGetObjectIdx packidx id := by
  unfold gotPackidxGetObjectIdx searchPackidx
  simp only [searchIds_withOffsets]
  rfl

/-- A consistent index lists its ids, with positions that are made up. -/
theorem ConsistentIdx.lists (h : ConsistentIdx packidx) (hlen : packidx.sortedIds.length < 2 ^ 31) :
    Lists (withOffsets packidx (List.replicate packidx.sortedIds.length 0))
      (packidx.sortedIds.map fun id => (id, 0)) where
  sorted := by
    unfold SortedBy
    rw [List.pairwise_map]
    refine h.sorted.imp fun {a b} hlt => ?_
    rcases memcmp_spec (a.2.trans b.2.symm) with ⟨-, hk⟩ | ⟨heq, -⟩ | ⟨hgt, -⟩
    · exact Nat.le_of_lt hk
    · exact nomatch hlt.symm.trans heq
    · exact nomatch hlt.symm.trans hgt
  ids := by
    rw [List.map_map]
    exact (List.map_id _).symm
  offsets := by
    rw [← List.map_const', withOffsets]
    dsimp only
    rw [List.forall₂_map_left_iff, List.forall₂_map_right_iff]
    exact List.forall₂_same.mpr fun id _ => rfl
  fanout_length := h.fanout_length
  fanout := by
    intro b hb
    rw [List.countP_map]
    exact h.fanout b hb
  length_lt := by
    rw [List.length_map]
    exact hlen

theorem ConsistentIdx.nodup (h : ConsistentIdx packidx) : packidx.sortedIds.Nodup := by
  refine h.sorted.imp fun {a b} hlt heq => ?_
  rw [heq, (memcmp_eq_iff rfl).mpr rfl] at hlt
  exact nomatch hlt

/-- Every id has one position. -/
theorem ConsistentIdx.position_inj (h : ConsistentIdx packidx) {i j : ℕ}
    (hi : packidx.sortedIds[i]? = some id) (hj : packidx.sortedIds[j]? = some id) : i = j :=
  (List.getElem?_inj (List.getElem?_eq_some_iff.mp hi).1 h.nodup).mp (hi.trans hj.symm)

/-- The number of ids is the last entry of the fan-out table. -/
theorem ConsistentIdx.totobj (h : ConsistentIdx packidx) :
    ∃ n : UInt32, tableAt packidx.fanoutTable 0xff = .ok n
      ∧ n.toNat = packidx.sortedIds.length := by
  have hlt : 255 < packidx.fanoutTable.length := by
    rw [h.fanout_length]
    decide
  refine ⟨_, tableAt_of_lt hlt, (h.fanout 255 hlt).trans ?_⟩
  rw [List.countP_eq_length]
  intro id _
  exact decide_eq_true (Nat.le_of_lt_succ (id.val.headD 0).toNat_lt)

/-! ## Up to `2 ^ 30` objects -/

/-- **The loop ends**: the range gets shorter in every round, for as long as the middle of a range
is within it. -/
theorem searchIds_add_fuel {fuel : ℕ} {left right : ℤ} (h0 : 0 ≤ left) (hright : right < 2 ^ 30)
    (hfuel : (right - left + 1).toNat ≤ fuel) (more : ℕ) :
    searchIds packidx id (fuel + more) left right = searchIds packidx id fuel left right := by
  induction fuel generalizing left right with
  | zero =>
    have hempty : ¬left ≤ right := by omega
    cases more with
    | zero => rfl
    | succ more =>
      rw [Nat.zero_add]
      show searchIds packidx id (more + 1) left right = .ok (.inr left)
      rw [searchIds, if_neg hempty]
  | succ fuel ih =>
    rw [Nat.add_right_comm, searchIds, searchIds]
    split
    · next hle =>
      obtain ⟨i, hi, hli, hir⟩ := middle_of_lt h0 hle (by omega)
      dsimp only
      rw [hi]
      cases tableAt packidx.sortedIds i with
      | error e => rfl
      | ok oid =>
        rw [ok_bind, ok_bind]
        split
        · rfl
        · exact ih (by omega) hright (by omega)
        · exact ih h0 (by omega) (by omega)
    · rfl

/-- Where the search starts. -/
theorem ConsistentIdx.firstIdx_nonneg (h : ConsistentIdx packidx)
    (hlen : packidx.sortedIds.length < 2 ^ 31) (id : Sha1) :
    ∃ left : ℕ, firstIdx packidx (id.val.headD 0) = .ok (left : ℤ) := by
  obtain ⟨left, hleft, -⟩ := firstIdx_spec (h.lists hlen) id
  exact ⟨left, hleft⟩

/-- **An index of up to `2 ^ 30` objects is searched rightly.** -/
theorem ConsistentIdx.findsIds_of_le (h : ConsistentIdx packidx)
    (hlen : packidx.sortedIds.length ≤ 2 ^ 30) : FindsIds packidx := by
  have hlen' : packidx.sortedIds.length < 2 ^ 31 := Nat.lt_of_le_of_lt hlen (by decide)
  have hspec := fun id => gotPackidxGetObjectIdx_spec (h.lists hlen') id
  simp only [gotPackidxGetObjectIdx_withOffsets, List.length_map, List.getElem?_map,
    Option.map_eq_some_iff, List.mem_map] at hspec
  refine ⟨fun i id hi => ?_, fun id hid => ?_, fun id more => ?_⟩
  · rcases hspec id with ⟨j, e, hj, ⟨id', hid', rfl⟩, rfl⟩ | ⟨-, hnone⟩ | ⟨-, hlarge⟩
    · rw [hj, h.position_inj hi hid']
    · exact absurd rfl (hnone (id, 0) ⟨id, List.mem_of_getElem? hi, rfl⟩)
    · exact absurd hlarge (Nat.not_lt.mpr hlen)
  · rcases hspec id with ⟨j, e, -, ⟨id', hid', rfl⟩, rfl⟩ | ⟨hnone, -⟩ | ⟨-, hlarge⟩
    · exact absurd (List.mem_of_getElem? hid') hid
    · exact hnone
    · exact absurd hlarge (Nat.not_lt.mpr hlen)
  · obtain ⟨n, hn, htot⟩ := h.totobj
    obtain ⟨left, hleft⟩ := h.firstIdx_nonneg hlen' id
    unfold searchPackidxLonger searchPackidx
    rw [hn, ok_bind, ok_bind]
    dsimp only
    rw [hleft, ok_bind, ok_bind]
    refine searchIds_add_fuel (Int.natCast_nonneg left) ?_ (Nat.le_refl _) more
    rw [toInt32_pred htot hlen']
    omega

/-! ## More than `2 ^ 30` objects -/

/-- The middle of a range is never beyond `2 ^ 30 - 1`. -/
theorem middle_lt (i : ℤ) : (toInt32 i).tdiv 2 < 2 ^ 30 := by
  have hlt : toInt32 i < 2 ^ 31 := by
    show (if i % 4294967296 < (4294967296 + 1) / 2 then i % 4294967296
      else i % 4294967296 - 4294967296) < 2 ^ 31
    split <;> omega
  rcases lt_or_ge (toInt32 i) 0 with hneg | hpos
  · have hnat : toInt32 i = -((-toInt32 i).toNat : ℤ) := by omega
    rw [hnat, Int.neg_tdiv, Int.tdiv_eq_ediv_of_nonneg (by omega)]
    omega
  · rw [Int.tdiv_eq_ediv_of_nonneg hpos]
    omega

/-- So whatever is found is before that. -/
theorem lt_of_searchIds_inl {fuel i : ℕ} {left right : ℤ}
    (h : searchIds packidx id fuel left right = .ok (.inl i)) : i < 2 ^ 30 := by
  induction fuel generalizing left right with
  | zero => exact nomatch Except.ok.inj h
  | succ fuel ih =>
    rw [searchIds] at h
    split at h
    · obtain ⟨oid, -, h⟩ := bind_eq_ok_iff.mp h
      split at h
      · have hi := Sum.inl.inj (Except.ok.inj h)
        have hmid := middle_lt (left + right)
        omega
      · exact ih h
      · exact ih h
    · exact nomatch Except.ok.inj h

/-- An index that is found is below 2^30. -/
theorem lt_of_gotPackidxGetObjectIdx {i : ℕ}
    (h : gotPackidxGetObjectIdx packidx id = .ok (some i)) :
    i < 2 ^ 30 := by
  obtain ⟨r, hr, h⟩ := bind_eq_ok_iff.mp h
  obtain ⟨totobj, -, hr⟩ := bind_eq_ok_iff.mp hr
  obtain ⟨left, -, hr⟩ := bind_eq_ok_iff.mp hr
  cases r with
  | inl j =>
    obtain rfl : j = i := Option.some.inj (Except.ok.inj h)
    exact lt_of_searchIds_inl hr
  | inr left => exact nomatch Except.ok.inj h

/-- **The last id of a larger index is not found.** -/
theorem not_findsIds_of_lt (hlen : 2 ^ 30 < packidx.sortedIds.length) : ¬FindsIds packidx := by
  intro h
  have hlast : packidx.sortedIds.length - 1 < packidx.sortedIds.length := by omega
  have hlt := lt_of_gotPackidxGetObjectIdx (h.found _ _ (List.getElem?_eq_getElem hlast))
  omega

/-- **An index is searched rightly if and only if it has at most `2 ^ 30` objects.** The bounds of
the binary search are of type `int`, and so is their sum, of which the middle is a half. Conversely,
the last id of a larger index can only be compared at a position for which the sum is too large. -/
theorem findsIds_iff (h : ConsistentIdx packidx) :
    FindsIds packidx ↔ packidx.sortedIds.length ≤ 2 ^ 30 :=
  ⟨fun hf => Nat.le_of_not_lt fun hlt => not_findsIds_of_lt hlt hf, h.findsIds_of_le⟩

/-! ## Indexes of any size -/

/-- The ids `0`, `1` and so on. -/
def firstIds (n : ℕ) : List Sha1 :=
  (List.range n).map fun k => ⟨bigEndian SHA1_DIGEST_LENGTH k, length_bigEndian _ _⟩

/-- An index of the first `n` ids. -/
def firstIdsIdx (n : ℕ) : Packidx where
  fanoutTable := (List.range 256).map fun b =>
    ((firstIds n).countP fun id => (id.val.headD 0).toNat ≤ b).toUInt32
  sortedIds := firstIds n
  offsets := List.replicate n 12
  largeOffsets := none
  nlargeobj := 0

theorem length_firstIds (n : ℕ) : (firstIds n).length = n := by
  rw [firstIds, List.length_map, List.length_range]

/-- The index of the first `n` ids is consistent. -/
theorem consistentIdx_firstIdsIdx {n : ℕ} (h : n < 2 ^ 32) : ConsistentIdx (firstIdsIdx n) where
  sorted := by
    show (firstIds n).Pairwise _
    rw [firstIds, List.pairwise_map]
    refine List.Pairwise.imp_of_mem (fun {a b} _ hb hlt => ?_) List.pairwise_lt_range
    have hb := List.mem_range.mp hb
    have hkey : ∀ k < n, idKey (bigEndian SHA1_DIGEST_LENGTH k) = k := fun k hk => by
      rw [idKey_bigEndian]
      exact Nat.mod_eq_of_lt (hk.trans (h.trans (by decide)))
    have hka := hkey a (hlt.trans hb)
    have hkb := hkey b hb
    rcases memcmp_spec ((length_bigEndian SHA1_DIGEST_LENGTH a).trans (length_bigEndian _ b).symm)
      with ⟨hm, -⟩ | ⟨-, heq⟩ | ⟨-, hk⟩
    · exact hm
    · rw [heq, hkb] at hka
      exact absurd hka.symm (Nat.ne_of_lt hlt)
    · rw [hka, hkb] at hk
      exact absurd hk (Nat.lt_asymm hlt)
  fanout_length := by
    show ((List.range 256).map _).length = 256
    rw [List.length_map, List.length_range]
  fanout := by
    intro b hb
    have hget : (firstIdsIdx n).fanoutTable[b]
        = ((firstIds n).countP fun id => (id.val.headD 0).toNat ≤ b).toUInt32 := by
      simp only [firstIdsIdx, List.getElem_map, List.getElem_range]
    rw [hget]
    refine Nat.mod_eq_of_lt (Nat.lt_of_le_of_lt List.countP_le_length ?_)
    rw [length_firstIds]
    exact h

theorem not_findsIds_firstIdsIdx {n : ℕ} (h : 2 ^ 30 < n) : ¬FindsIds (firstIdsIdx n) :=
  not_findsIds_of_lt (Nat.lt_of_lt_of_eq h (length_firstIds n).symm)

theorem findsIds_twoIds :
    FindsIds (firstIdsIdx 2) ↔ (firstIdsIdx 2).sortedIds.length ≤ 2 ^ 30 :=
  findsIds_iff (consistentIdx_firstIdsIdx (by decide))

/-- The smallest index in which the last id is not found. -/
theorem not_findsIds_manyIds :
    ConsistentIdx (firstIdsIdx (2 ^ 30 + 1)) ∧ ¬FindsIds (firstIdsIdx (2 ^ 30 + 1)) :=
  ⟨consistentIdx_firstIdsIdx (by decide), not_findsIds_firstIdsIdx (by decide)⟩

end Got

import Got.Error
import Got.Lib.OrderedList
import Got.PathOrder

/-!
# Sets of object ids

A set of object ids is a search tree over the ids and a count. Adding an id
that is there leaves the tree as it is, but is counted (`Counted` is what gets
lost); an id that is not there is not removed. How ids are compared does not
matter, so they are taken from any linear order.
-/

namespace Got

open OrderedList

def GOT_OBJECT_IDSET_MAX_ELEM : ℕ := 2 ^ 31 - 1

variable {ι : Type} [LinearOrder ι]

/-- **A set of object ids**: what is in the tree, from left to right, and the
count. -/
structure ObjectIdset (ι : Type) [LinearOrder ι] where
  entries : List ι
  totelem : ℕ
  inOrder : OrderedList.InOrder id entries

theorem comparesBy_linCmp : ComparesBy (linCmp : ι → ι → Ordering) id where
  lt_iff := linCmp_eq_lt_iff
  eq_iff := linCmp_eq_eq_iff
  gt_iff := linCmp_eq_gt_iff

namespace ObjectIdset

/-- `got_object_idset_alloc` -/
def alloc : ObjectIdset ι := ⟨[], 0, List.Pairwise.nil⟩

instance : Membership ι (ObjectIdset ι) := ⟨fun set id => id ∈ set.entries⟩

/-- **`got_object_idset_add`**, which counts an id that is there already once
more. -/
def add (set : ObjectIdset ι) (id : ι) : Except GotErr (ObjectIdset ι) :=
  if set.totelem ≥ GOT_OBJECT_IDSET_MAX_ELEM then .error .noSpace
  else .ok ⟨insertBy linCmp id set.entries, set.totelem + 1,
    set.inOrder.insertBy comparesBy_linCmp id⟩

/-- `got_object_idset_contains` -/
def contains (set : ObjectIdset ι) (id : ι) : Bool := (findBy (linCmp id) set.entries).isSome

/-- `got_object_idset_remove` -/
def remove (set : ObjectIdset ι) (id : ι) : Except GotErr (ObjectIdset ι) :=
  if set.totelem = 0 then .error .noObj
  else if set.contains id then
    .ok ⟨set.entries.erase id, set.totelem - 1, set.inOrder.sublist List.erase_sublist⟩
  else .error .noObj

/-- `got_object_idset_num_elements` -/
def numElements (set : ObjectIdset ι) : ℕ := set.totelem

/-- **The count is right.** -/
def Counted (set : ObjectIdset ι) : Prop := set.totelem = set.entries.length

variable {set set' : ObjectIdset ι} {id x : ι} {e : GotErr}

theorem mem_def : x ∈ set ↔ x ∈ set.entries := Iff.rfl

theorem not_mem_alloc : x ∉ (alloc : ObjectIdset ι) := List.not_mem_nil

theorem counted_alloc : (alloc : ObjectIdset ι).Counted := rfl

theorem nodup (set : ObjectIdset ι) : set.entries.Nodup := by
  have h := set.inOrder.nodup_map
  rwa [List.map_id] at h

/-- `got_object_idset_contains` decides membership. -/
theorem contains_iff : set.contains id ↔ id ∈ set := by
  have hfind : ∀ b, linCmp id b = .eq ↔ id = b := fun b => linCmp_eq_eq_iff
  unfold contains
  rw [Option.isSome_iff_exists]
  constructor
  · rintro ⟨b, hb⟩
    obtain ⟨hmem, rfl⟩ := (findBy_eq_some_iff hfind set.inOrder).mp hb
    exact hmem
  · intro h
    exact ⟨id, (findBy_eq_some_iff hfind set.inOrder).mpr ⟨h, rfl⟩⟩

theorem contains_eq_false_iff : set.contains id = false ↔ id ∉ set := by
  rw [← contains_iff, Bool.not_eq_true]

/-! ## Adding and removing -/

/-- After an insertion the set holds what it held and the new id. -/
theorem mem_add (h : set.add id = .ok set') : x ∈ set' ↔ x = id ∨ x ∈ set := by
  unfold add at h
  split at h
  · exact nomatch h
  · obtain rfl := Except.ok.inj h
    refine ⟨fun hx => eq_or_mem_of_mem_insertBy hx, fun hx => ?_⟩
    rcases hx with rfl | hx
    · -- it is there already, or inserted
      by_cases hmem : x ∈ set.entries
      · exact mem_insertBy_of_mem hmem
      · exact (perm_insertBy comparesBy_linCmp fun b hb (heq : b = x) =>
          hmem (heq ▸ hb)).mem_iff.mpr
          List.mem_cons_self
    · exact mem_insertBy_of_mem hx

/-- Adding an id is counted, be it there or not. -/
theorem totelem_add (h : set.add id = .ok set') : set'.totelem = set.totelem + 1 := by
  unfold add at h
  split at h
  · exact nomatch h
  · obtain rfl := Except.ok.inj h
    rfl

/-- There is room for one more. -/
theorem exists_add (h : set.totelem < GOT_OBJECT_IDSET_MAX_ELEM) (id : ι) :
    ∃ set', set.add id = .ok set' := by
  unfold add
  rw [if_neg (Nat.not_le.mpr h)]
  exact ⟨_, rfl⟩

/-- An id that is not there is added once. -/
theorem perm_add (h : set.add id = .ok set') (hid : id ∉ set) :
    set'.entries.Perm (id :: set.entries) := by
  unfold add at h
  split at h
  · exact nomatch h
  · obtain rfl := Except.ok.inj h
    exact perm_insertBy comparesBy_linCmp fun b hb (heq : b = id) => hid (mem_def.mpr (heq ▸ hb))

/-- **Adding an id that is not there** keeps the count right. -/
theorem Counted.add (hc : set.Counted) (h : set.add id = .ok set') (hid : id ∉ set) :
    set'.Counted := by
  unfold Counted
  rw [totelem_add h, (perm_add h hid).length_eq, List.length_cons, hc]

/-- After the removal of an id the set has all others. -/
theorem mem_remove (h : set.remove id = .ok set') : x ∈ set' ↔ x ≠ id ∧ x ∈ set := by
  unfold remove at h
  split at h
  · exact nomatch h
  · split at h
    · obtain rfl := Except.ok.inj h
      exact set.nodup.mem_erase_iff
    · exact nomatch h

/-- Removing an id keeps the count in step with the entries. -/
theorem Counted.remove (hc : set.Counted) (h : set.remove id = .ok set') : set'.Counted := by
  unfold ObjectIdset.remove at h
  split at h
  · exact nomatch h
  · split at h
    · next hid =>
      obtain rfl := Except.ok.inj h
      show set.totelem - 1 = (set.entries.erase id).length
      rw [List.length_erase_of_mem (contains_iff.mp hid), hc]
    · exact nomatch h

/-- Removing fails only because there is nothing to remove. -/
theorem remove_eq_error (h : set.remove id = .error e) (hc : set.Counted) :
    e = .noObj ∧ id ∉ set := by
  unfold remove at h
  split at h
  · next h0 =>
    refine ⟨(Except.error.inj h).symm, ?_⟩
    have hlen : set.entries.length = 0 := by rw [← hc, h0]
    rw [mem_def, List.eq_nil_of_length_eq_zero hlen]
    exact List.not_mem_nil
  · split at h
    · exact nomatch h
    · next hid => exact ⟨(Except.error.inj h).symm, fun hmem => hid (contains_iff.mpr hmem)⟩

end ObjectIdset

end Got

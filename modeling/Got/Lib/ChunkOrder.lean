import Mathlib.Data.List.Lex
import Got.Lib.OrderedList

/-!
# Comparing by chunks

Two lists are compared by their texts, where the text of a list is that of its parts, one after
the other: words in a dictionary, of which some letters may not count. If the lists are long
they are cut into chunks of one size, and a chunk is compared with the chunk of the same number
until two of them differ. A list that has no more chunks is smaller than one that has.

Where letters do not count, the texts of two chunks of one size are not of one length. So it
may be that one of them is used up while the other goes on, and what would have to be compared
with the rest of it is in the next chunk. The result is still that of the whole texts if the
list which is used up first is the smaller one, wherever this happens (`InStep`), and only
then (`chunkCompare_eq_iff`).
-/

namespace ChunkOrder

open OrderedList

variable {α β : Type} {cmp : List α → List α → Ordering} {text : List α → List β} {size : ℕ}
  {xs ys : List α} {fuel k : ℕ}

/-- **Comparing chunk by chunk.** -/
def chunkCompare (cmp : List α → List α → Ordering) (size : ℕ) : ℕ → List α → List α → Ordering
  | 0, _, _ => .eq
  | fuel + 1, xs, ys =>
    if xs = [] ∧ ys = [] then .eq
    else if ys = [] then .gt
    else if xs = [] then .lt
    else (cmp (xs.take size) (ys.take size)).then
      (chunkCompare cmp size fuel (xs.drop size) (ys.drop size))

/-- The texts of the first `k` chunks are the same. -/
def Agree (text : List α → List β) (size k : ℕ) (xs ys : List α) : Prop :=
  ∀ j < k, text ((xs.drop (j * size)).take size) = text ((ys.drop (j * size)).take size)

/-- **The first chunk is used up** before that of the other list: there is none, or its text
goes on in the other one. -/
def UsedUp (text : List α → List β) (size : ℕ) (xs ys : List α) : Prop :=
  xs = [] ∧ ys ≠ []
    ∨ text (xs.take size) <+: text (ys.take size) ∧ text (xs.take size) ≠ text (ys.take size)

/-- **Lists in step**: where the chunks have agreed, and one of the lists is used up before the
other, it is the smaller one. -/
def InStep [LinearOrder β] (text : List α → List β) (size : ℕ) (xs ys : List α) : Prop :=
  ∀ k, Agree text size k xs ys →
    (UsedUp text size (xs.drop (k * size)) (ys.drop (k * size)) → text xs < text ys)
      ∧ (UsedUp text size (ys.drop (k * size)) (xs.drop (k * size)) → text ys < text xs)

/-! ## Words -/

section Words

variable [LinearOrder β]

/-- Words with the same beginning. -/
theorem append_lt_append_iff (pre us vs : List β) : pre ++ us < pre ++ vs ↔ us < vs := by
  induction pre with
  | nil => rfl
  | cons a pre ih =>
    rw [List.cons_append, List.cons_append, List.cons_lt_cons_iff, ih]
    exact ⟨fun h => h.elim (fun h => absurd h (lt_irrefl a)) And.right, fun h => Or.inr ⟨rfl, h⟩⟩

/-- A word that does not go on in a greater one stays smaller, whatever follows. -/
theorem append_lt_append {us vs : List β} (h : us < vs) (hpre : ¬us <+: vs) (us' vs' : List β) :
    us ++ us' < vs ++ vs' := by
  induction us generalizing vs with
  | nil => exact absurd List.nil_prefix hpre
  | cons u us ih =>
    cases vs with
    | nil => exact absurd h (List.not_lt_nil _)
    | cons v vs =>
      rw [List.cons_append, List.cons_append, List.cons_lt_cons_iff]
      rcases List.cons_lt_cons_iff.mp h with hlt | ⟨rfl, hlt⟩
      · exact Or.inl hlt
      · exact Or.inr ⟨rfl, ih hlt fun hp => hpre (List.cons_prefix_cons.mpr ⟨rfl, hp⟩)⟩

/-- A proper beginning of a list comes before it. -/
theorem lt_of_isPrefix_ne {us vs : List β} (h : us <+: vs) (hne : us ≠ vs) : us < vs := by
  obtain ⟨rest, rfl⟩ := h
  conv_lhs => rw [← List.append_nil us]
  rw [append_lt_append_iff]
  cases rest with
  | nil => exact absurd (List.append_nil us).symm hne
  | cons v rest => exact List.nil_lt_cons v rest

end Words

/-! ## One chunk after another -/

theorem Agree.symm (h : Agree text size k xs ys) : Agree text size k ys xs :=
  fun j hj => (h j hj).symm

/-- Texts that agree block by block agree on the first block and on what follows. -/
theorem agree_succ_iff :
    Agree text size (k + 1) xs ys ↔ text (xs.take size) = text (ys.take size)
      ∧ Agree text size k (xs.drop size) (ys.drop size) := by
  have hdrop : ∀ (zs : List α) (j : ℕ), (zs.drop size).drop (j * size) = zs.drop ((j + 1) * size) :=
    fun zs j => by rw [List.drop_drop, Nat.add_mul, Nat.one_mul, Nat.add_comm]
  constructor
  · intro h
    refine ⟨?_, fun j hj => ?_⟩
    · have h0 := h 0 (Nat.succ_pos k)
      rwa [Nat.zero_mul, List.drop_zero, List.drop_zero] at h0
    · rw [hdrop, hdrop]
      exact h (j + 1) (Nat.succ_lt_succ hj)
  · rintro ⟨h0, h⟩ j hj
    cases j with
    | zero => rwa [Nat.zero_mul, List.drop_zero, List.drop_zero]
    | succ j =>
      have hjk := h j (Nat.lt_of_succ_lt_succ hj)
      rwa [hdrop, hdrop] at hjk

section Text

variable (happ : ∀ us vs : List α, text (us ++ vs) = text us ++ text vs)
include happ

theorem text_nil : text [] = [] := by
  have h := congrArg List.length (happ [] [])
  rw [List.append_nil, List.length_append] at h
  exact List.eq_nil_of_length_eq_zero (by omega)

/-- The text of a list is that of its first chunk, and the rest. -/
theorem text_split (size : ℕ) (zs : List α) :
    text zs = text (zs.take size) ++ text (zs.drop size) := by
  rw [← happ, List.take_append_drop]

theorem not_usedUp_nil : ¬UsedUp text size xs [] := by
  rintro (⟨-, hne⟩ | ⟨hpre, hne⟩)
  · exact hne rfl
  · rw [List.take_nil, text_nil happ] at hpre hne
    exact hne (List.prefix_nil.mp hpre)

variable [LinearOrder β] (hcmp : ComparesBy cmp text)
include hcmp

omit happ in
/-- Comparing the other way round answers the other way round. -/
theorem chunkCompare_swap (size fuel : ℕ) (xs ys : List α) :
    (chunkCompare cmp size fuel xs ys).swap = chunkCompare cmp size fuel ys xs := by
  induction fuel generalizing xs ys with
  | zero => rfl
  | succ fuel ih =>
    rw [chunkCompare, chunkCompare]
    by_cases hx : xs = [] <;> by_cases hy : ys = []
    · rw [if_pos ⟨hx, hy⟩, if_pos ⟨hy, hx⟩]
      rfl
    · rw [if_neg (fun h => hy h.2), if_neg hy, if_pos hx, if_neg (fun h => hy h.1), if_pos hx]
      rfl
    · rw [if_neg (fun h => hx h.1), if_pos hy, if_neg (fun h => hx h.2), if_neg hx, if_pos hy]
      rfl
    · rw [if_neg (fun h => hx h.1), if_neg hy, if_neg hx, if_neg (fun h => hx h.2), if_neg hx,
        if_neg hy, Ordering.swap_then, ih, hcmp.swap]

/-- **What is used up first is called smaller.** -/
theorem chunkCompare_of_usedUp (hsize : 0 < size) (hfuel : ys.length < fuel)
    (hagree : Agree text size k xs ys)
    (hused : UsedUp text size (xs.drop (k * size)) (ys.drop (k * size))) :
    chunkCompare cmp size fuel xs ys = .lt := by
  induction k generalizing xs ys fuel with
  | zero =>
    rw [Nat.zero_mul, List.drop_zero, List.drop_zero] at hused
    obtain ⟨fuel, rfl⟩ : ∃ f, fuel = f + 1 := ⟨fuel - 1, by omega⟩
    have hy : ys ≠ [] := by
      rintro rfl
      exact not_usedUp_nil happ hused
    rw [chunkCompare, if_neg (fun h => hy h.2), if_neg hy]
    split
    · rfl
    next hx =>
    obtain ⟨hpre, hne⟩ := hused.resolve_left fun h => hx h.1
    rw [hcmp.lt_iff.mpr (lt_of_isPrefix_ne hpre hne)]
    rfl
  | succ k ih =>
    obtain ⟨heq, hagree⟩ := agree_succ_iff.mp hagree
    obtain ⟨fuel, rfl⟩ : ∃ f, fuel = f + 1 := ⟨fuel - 1, by omega⟩
    have hy : ys ≠ [] := by
      rintro rfl
      rw [List.drop_nil] at hused
      exact not_usedUp_nil happ hused
    rw [chunkCompare, if_neg (fun h => hy h.2), if_neg hy]
    split
    · rfl
    have hlen : (ys.drop size).length < ys.length := by
      have := List.length_pos_iff.mpr hy
      rw [List.length_drop]
      omega
    rw [hcmp.eq_iff.mpr heq]
    refine ih (by omega) hagree ?_
    rwa [List.drop_drop, List.drop_drop, Nat.add_comm, ← Nat.succ_mul]

/-- Where all chunks agree the texts do. -/
theorem text_eq_of_chunkCompare (hx : xs.length < fuel) (hy : ys.length < fuel) (hsize : 0 < size)
    (h : chunkCompare cmp size fuel xs ys = .eq) : text xs = text ys := by
  induction fuel generalizing xs ys with
  | zero => omega
  | succ fuel ih =>
    rw [chunkCompare] at h
    split at h
    · next hnil => rw [hnil.1, hnil.2]
    split at h
    · cases h
    split at h
    · cases h
    next hyne hxne =>
    have hxpos := List.length_pos_iff.mpr hxne
    have hypos := List.length_pos_iff.mpr hyne
    obtain ⟨heq, hrest⟩ := Ordering.then_eq_eq.mp h
    have hdrop := ih (by rw [List.length_drop]; omega) (by rw [List.length_drop]; omega) hrest
    rw [text_split happ size xs, text_split happ size ys, hcmp.eq_iff.mp heq, hdrop]

/-- **Why a list is called smaller**: its text is, or it is used up first. -/
theorem lt_or_usedUp_of_chunkCompare (h : chunkCompare cmp size fuel xs ys = .lt) :
    text xs < text ys ∨ ∃ k, Agree text size k xs ys
      ∧ UsedUp text size (xs.drop (k * size)) (ys.drop (k * size)) := by
  induction fuel generalizing xs ys with
  | zero => cases h
  | succ fuel ih =>
    have hfirst : UsedUp text size xs ys → ∃ k, Agree text size k xs ys
        ∧ UsedUp text size (xs.drop (k * size)) (ys.drop (k * size)) := fun hused =>
      ⟨0, fun j hj => absurd hj (Nat.not_lt_zero j), by
        rwa [Nat.zero_mul, List.drop_zero, List.drop_zero]⟩
    rw [chunkCompare] at h
    split at h
    · cases h
    split at h
    · cases h
    split at h
    · next hyne hxnil => exact Or.inr (hfirst (Or.inl ⟨hxnil, hyne⟩))
    rcases Ordering.then_eq_lt.mp h with hlt | ⟨heq, hrest⟩
    · have hchunk := hcmp.lt_iff.mp hlt
      by_cases hpre : text (xs.take size) <+: text (ys.take size)
      · exact Or.inr (hfirst (Or.inr ⟨hpre, hchunk.ne⟩))
      · left
        rw [text_split happ size xs, text_split happ size ys]
        exact append_lt_append hchunk hpre _ _
    · have hchunk := hcmp.eq_iff.mp heq
      rcases ih hrest with hlt | ⟨k, hagree, hused⟩
      · left
        rw [text_split happ size xs, text_split happ size ys, hchunk, append_lt_append_iff]
        exact hlt
      · refine Or.inr ⟨k + 1, agree_succ_iff.mpr ⟨hchunk, hagree⟩, ?_⟩
        rwa [List.drop_drop, List.drop_drop, Nat.add_comm, ← Nat.succ_mul] at hused

/-- **Chunks are compared like the whole lists** exactly if these are in step. -/
theorem chunkCompare_eq_iff (hsize : 0 < size) (hx : xs.length < fuel) (hy : ys.length < fuel) :
    chunkCompare cmp size fuel xs ys = cmp xs ys ↔ InStep text size xs ys := by
  have hswap := chunkCompare_swap hcmp size fuel xs ys
  constructor
  · intro h k hagree
    refine ⟨fun hused => ?_, fun hused => ?_⟩
    · rw [chunkCompare_of_usedUp happ hcmp hsize hy hagree hused] at h
      exact hcmp.lt_iff.mp h.symm
    · rw [h, hcmp.swap, chunkCompare_of_usedUp happ hcmp hsize hx hagree.symm hused] at hswap
      exact hcmp.lt_iff.mp hswap
  · intro h
    cases hres : chunkCompare cmp size fuel xs ys with
    | eq => exact (hcmp.eq_iff.mpr (text_eq_of_chunkCompare happ hcmp hx hy hsize hres)).symm
    | lt =>
      refine (hcmp.lt_iff.mpr ?_).symm
      rcases lt_or_usedUp_of_chunkCompare happ hcmp hres with hlt | ⟨k, hagree, hused⟩
      · exact hlt
      · exact (h k hagree).1 hused
    | gt =>
      rw [hres] at hswap
      refine (hcmp.gt_iff.mpr ?_).symm
      rcases lt_or_usedUp_of_chunkCompare happ hcmp hswap.symm with hlt | ⟨k, hagree, hused⟩
      · exact hlt
      · exact (h k hagree.symm).2 hused

omit hcmp

/-! ## Lists which are in step -/

/-- What is compared behind chunks that agree. -/
theorem Agree.lt_iff (h : Agree text size k xs ys) :
    text xs < text ys ↔ text (xs.drop (k * size)) < text (ys.drop (k * size)) := by
  induction k generalizing xs ys with
  | zero => rw [Nat.zero_mul, List.drop_zero, List.drop_zero]
  | succ k ih =>
    obtain ⟨heq, hagree⟩ := agree_succ_iff.mp h
    rw [text_split happ size xs, text_split happ size ys, heq, append_lt_append_iff, ih hagree,
      List.drop_drop, List.drop_drop, Nat.add_comm, ← Nat.succ_mul]

/-- **Where every letter counts** lists are in step. -/
theorem inStep_of_length_eq (hlen : ∀ zs, (text zs).length = zs.length) (xs ys : List α) :
    InStep text size xs ys := by
  have hlt : ∀ us vs : List α, UsedUp text size us vs → text us < text vs := by
    rintro us vs (⟨rfl, hne⟩ | ⟨hpre, hne⟩)
    · refine lt_of_isPrefix_ne (by rw [text_nil happ]; exact List.nil_prefix) fun heq => hne ?_
      have := hlen vs
      rw [← heq, hlen] at this
      exact List.eq_nil_of_length_eq_zero this.symm
    · -- the chunk is not a full one, so it is the last
      have hshort : us.take size = us := by
        have h := lt_of_le_of_ne hpre.length_le fun h => hne (hpre.eq_of_length h)
        rw [hlen, hlen, List.length_take, List.length_take] at h
        exact List.take_of_length_le (by omega)
      rw [hshort] at hpre hne
      have hwhole := text_split happ size vs
      refine lt_of_isPrefix_ne (hpre.trans ⟨_, hwhole.symm⟩) fun heq => hne ?_
      rw [heq] at hpre ⊢
      exact hpre.eq_of_length_le (hwhole ▸ (List.prefix_append _ _).length_le)
  exact fun k hagree => ⟨fun hused => (hagree.lt_iff happ).mpr (hlt _ _ hused),
    fun hused => (hagree.symm.lt_iff happ).mpr (hlt _ _ hused)⟩

end Text

end ChunkOrder

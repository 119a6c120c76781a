import Mathlib.Data.List.Sort
import Got.IndexPack.WellFormed

/-!
# The second pass ends if one round is enough

The loop counts the valid objects in `nvalid` and the resolved ones in
`nresolved`, and after every round adds the second number to the first. After
one round that is the number of objects this round resolved, and after two it
is that of both rounds together, which are then counted twice. So `nvalid` is
ahead of the truth from the second round on, and the loop cannot end in the
way it should: `Ahead` is kept by every round (`Ahead.step`). A pack for which
one round is not enough is never indexed.

One round is enough exactly if every ref delta finds its base id among those
of the plain objects and of the deltas before it, in the order in which
`qsort` leaves the objects (`ResolvesInOrder`). For a pack without ref deltas
that is always the case.
-/

namespace Got

open SortedTable

variable {plat : Platform}

/-! ## The counters -/

/-- **What a round does with an object**: it is left alone, or it is resolved
and counted. -/
theorem resolvePass_cons {pack : Pack} {refs : Bool} {obj : IndexedObject}
    {objects objects' : List IndexedObject} {packidx packidx' : Packidx} {n : ℕ}
    (h : resolvePass plat pack refs (obj :: objects) packidx = .ok (objects', packidx', n)) :
    (∃ rest, (¬isDeltaType obj.type ∨ obj.valid
          ∨ resolveDeltifiedObject plat pack packidx obj.toObjHdr = .error .noObj)
        ∧ resolvePass plat pack refs objects packidx = .ok (rest, packidx', n)
        ∧ objects' = obj :: rest)
      ∨ ∃ id packidx₁ rest m, resolveDeltifiedObject plat pack packidx obj.toObjHdr = .ok id
        ∧ updateIf refs packidx { obj with id, valid := true } = .ok packidx₁
        ∧ resolvePass plat pack refs objects packidx₁ = .ok (rest, packidx', m)
        ∧ objects' = { obj with id, valid := true } :: rest ∧ n = m + 1
        ∧ isDeltaType obj.type ∧ ¬obj.valid := by
  have hskip : (do
      let r ← resolvePass plat pack refs objects packidx
      return (obj :: r.1, r.2)) = .ok (objects', packidx', n) →
      ∃ rest, resolvePass plat pack refs objects packidx = .ok (rest, packidx', n)
        ∧ objects' = obj :: rest := by
    intro hs
    obtain ⟨⟨rest, packidx₁, m⟩, hr, hs⟩ := bind_eq_ok_iff.mp hs
    have hs := Except.ok.inj (show Except.ok _ = _ from hs)
    cases hs
    exact ⟨rest, hr, rfl⟩
  rw [resolvePass] at h
  split at h
  · next hleft =>
    obtain ⟨rest, hr, ho⟩ := hskip h
    exact Or.inl ⟨rest, hleft.imp_right Or.inl, hr, ho⟩
  next hdelta =>
  split at h
  · next hnone =>
    obtain ⟨rest, hr, ho⟩ := hskip h
    exact Or.inl ⟨rest, Or.inr (Or.inr hnone), hr, ho⟩
  · cases h
  · next id hid =>
    obtain ⟨packidx₁, hu, h⟩ := bind_eq_ok_iff.mp h
    obtain ⟨⟨rest, packidx₂, m⟩, hr, h⟩ := bind_eq_ok_iff.mp h
    have h := Except.ok.inj (show Except.ok _ = _ from h)
    cases h
    exact Or.inr ⟨id, packidx₁, rest, m, hid, hu, hr, rfl, rfl,
      not_not.mp (fun hn => hdelta (Or.inl hn)), fun hv => hdelta (Or.inr hv)⟩

/-- A round that resolves nothing changes nothing. -/
theorem resolvePass_zero {pack : Pack} {refs : Bool} {objects objects' : List IndexedObject}
    {packidx packidx' : Packidx}
    (h : resolvePass plat pack refs objects packidx = .ok (objects', packidx', 0)) :
    objects' = objects ∧ packidx' = packidx := by
  induction objects generalizing objects' with
  | nil =>
    have h := Except.ok.inj (show Except.ok _ = _ from h)
    cases h
    exact ⟨rfl, rfl⟩
  | cons obj objects ih =>
    rcases resolvePass_cons h with ⟨rest, -, hr, rfl⟩ | ⟨_, _, _, m, -, -, -, -, hm, -⟩
    · obtain ⟨rfl, rfl⟩ := ih hr
      exact ⟨rfl, rfl⟩
    · exact absurd hm.symm (Nat.succ_ne_zero m)

/-- **The count is ahead**: some objects are counted more than once, or not
everything was resolved. -/
structure Ahead (nobj nloose : ℕ) (s : PassState) : Prop where
  pos : 0 < s.nresolved
  le : nloose + s.nresolved ≤ s.nvalid
  ne : s.nvalid = nobj → nloose + s.nresolved ≠ nobj

/-- Every round keeps the count ahead. -/
theorem Ahead.step {nobj nloose : ℕ} {s s' : PassState} (h : Ahead nobj nloose s) {n : ℕ}
    (hresolved : s'.nresolved = s.nresolved + n)
    (hvalid : s'.nvalid = s.nvalid + s'.nresolved) : Ahead nobj nloose s' := by
  obtain ⟨hpos, hle, -⟩ := h
  exact ⟨by omega, by omega, by omega⟩

/-- **Once the count is ahead the loop does not end well.** -/
theorem Ahead.passLoop {pack : Pack} {refs : Bool} {nobj nloose first fuel : ℕ}
    {s s' : PassState} (h : Ahead nobj nloose s)
    (hl : passLoop plat pack refs nobj first fuel s = some (.ok s')) :
    nloose + s'.nresolved ≠ nobj := by
  induction fuel generalizing s with
  | zero => exact nomatch hl
  | succ fuel ih =>
    rw [Got.passLoop] at hl
    split at hl
    · next hend =>
      obtain rfl := Except.ok.inj (Option.some.inj hl)
      exact h.ne hend
    split at hl
    · exact nomatch hl
    split at hl
    · exact nomatch hl
    · exact ih (h.step rfl rfl) hl

/-- A loop whose first round resolves nothing does not end well either: no
later round resolves anything. -/
theorem passLoop_of_zero {pack : Pack} {refs : Bool} {nobj first fuel : ℕ} {s s' : PassState}
    {objects : List IndexedObject} {packidx : Packidx} (hne : s.nvalid ≠ nobj)
    (hs : s.nresolved = 0)
    (hz : resolvePass plat pack refs (s.objects.drop first) s.packidx = .ok (objects, packidx, 0)) :
    passLoop plat pack refs nobj first fuel s ≠ some (.ok s') := by
  induction fuel generalizing s with
  | zero => exact fun h => nomatch h
  | succ fuel ih =>
    rw [Got.passLoop, if_neg hne, hz]
    dsimp only
    obtain ⟨rfl, rfl⟩ := resolvePass_zero hz
    split
    · exact fun h => nomatch h
    · refine ih ?_ ?_ ?_
      · dsimp only
        rw [hs]
        exact hne
      · rw [hs]
      · dsimp only
        rw [List.take_append_drop]
        exact hz

/-! ## Plain objects and deltas -/

variable {w : WellFormedPack plat}

/-- An object is a delta or is stored as it is. -/
theorem isDeltaType_iff {o : IndexedObject} (ho : o ∈ w.objects) :
    isDeltaType o.type ↔ ¬isPlainType o.type := by
  have hsplit : ∀ t : UInt8, isPlainType t → ¬isDeltaType t := by
    intro t hp hd
    unfold isPlainType at hp
    rcases of_decide_eq_true hp with rfl | rfl | rfl | rfl <;> exact absurd hd (by decide)
  refine ⟨fun hd hp => hsplit _ hp hd, fun hp => ?_⟩
  rcases (WellFormedPack.firstPass ho).type with h | h | h
  · exact absurd h hp
  · rw [h]; rfl
  · rw [h]; rfl

/-- After the first pass the plain objects are valid, and no delta is. -/
theorem valid_iff {o : IndexedObject} (ho : o ∈ w.objects) : o.valid ↔ ¬isDeltaType o.type := by
  rw [isDeltaType_iff ho, (WellFormedPack.firstPass ho).valid, not_not]

/-- Every object is loose or a delta. -/
theorem nloose_add_countP :
    nloose w.objects + w.objects.countP (fun o => isDeltaType o.type) = w.objects.length := by
  rw [nloose, List.length_eq_countP_add_countP (fun o => isPlainType o.type)]
  refine congrArg (_ + ·) (List.countP_congr (fun o ho => ?_))
  rw [isDeltaType_iff ho]
  simp

/-- With more ids known an object stays resolvable. -/
theorem Resolvable.mono {known known' : Sha1 → Prop} {o : IndexedObject}
    (h : Resolvable w known o) (hk : ∀ id, known id → known' id) : Resolvable w known' o := by
  induction h with
  | plain hp => exact .plain hp
  | offsetDelta ht hp hb _ ih => exact .offsetDelta ht hp hb ih
  | refDelta ht hid hknown => exact .refDelta ht hid (hk _ hknown)

/-- Without ref deltas everything can be resolved. -/
theorem resolvable_of_no_refs (hrefs : haveRefDeltas w.objects = false) {o : IndexedObject}
    (ho : o ∈ w.objects) (known : Sha1 → Prop) : Resolvable w known o := by
  induction hn : w.contents.rank o.offset using Nat.strong_induction_on generalizing o with
  | _ n ih =>
    subst hn
    rcases (WellFormedPack.firstPass ho).type with hp | ht | ht
    · exact .plain hp
    · exact absurd (decide_eq_true ht) (List.any_eq_false.mp hrefs o ho)
    · obtain ⟨b, hb, n, hp, ha⟩ := w.offsetDelta o ho ht
      exact .offsetDelta ht hp hb (ih _ ha.rank_lt hb rfl)

/-! ## The index at every position of a round -/

variable (w) in
/-- **The ids that are known at a position of the array**: those of all plain
objects, and of the deltas before it. -/
def Before (arr before : List IndexedObject) (id : Sha1) : Prop :=
  ∃ x ∈ arr, (isPlainType x.type ∨ x ∈ before) ∧ w.idOf x = id

variable (w) in
/-- The index at a position of the array: it has the ids that are known there,
or no ids at all if it is not needed. -/
structure Indexes (refs : Bool) (arr before : List IndexedObject) (packidx : Packidx) : Prop where
  entries : ∃ es, Grows packidx es ∧ ListsResolvable w es
    ∧ (∀ id, Known es id ↔ refs = true ∧ Before w arr before id)
    ∧ es.length + (arr.drop before.length).countP (fun o => isDeltaType o.type) ≤ arr.length
  room : ∀ o ∈ w.objects, HasRoom packidx o.offset

variable {refs : Bool} {arr before after : List IndexedObject} {o : IndexedObject}
  {packidx : Packidx}

/-- What comes before an object, once one more is passed. -/
theorem before_append_iff (ho : o ∈ arr) (id : Sha1) :
    Before w arr (before ++ [o]) id ↔ Before w arr before id ∨ w.idOf o = id := by
  constructor
  · rintro ⟨x, hx, hknown, rfl⟩
    rcases hknown with hp | hmem
    · exact Or.inl ⟨x, hx, Or.inl hp, rfl⟩
    rcases List.mem_append.mp hmem with hmem | hmem
    · exact Or.inl ⟨x, hx, Or.inr hmem, rfl⟩
    · rw [List.mem_singleton.mp hmem]
      exact Or.inr rfl
  · rintro (⟨x, hx, hknown, rfl⟩ | rfl)
    · exact ⟨x, hx, hknown.imp_right (List.mem_append_left _), rfl⟩
    · exact ⟨o, ho, Or.inr (List.mem_append_right _ List.mem_cons_self), rfl⟩

theorem drop_concat {α : Type} (before after : List α) (a : α) :
    (before ++ a :: after).drop (before ++ [a]).length = after := by
  rw [List.append_cons before a after, List.drop_left]

/-- A plain object changes nothing. -/
theorem Indexes.skip (h : Indexes w refs (before ++ o :: after) before packidx)
    (hp : isPlainType o.type) (hd : ¬isDeltaType o.type) :
    Indexes w refs (before ++ o :: after) (before ++ [o]) packidx := by
  obtain ⟨⟨es, hg, hes, hknown, hlen⟩, hroom⟩ := h
  refine ⟨⟨es, hg, hes, fun id => ?_, ?_⟩, hroom⟩
  · have hmem : o ∈ before ++ o :: after := List.mem_append_right _ List.mem_cons_self
    rw [hknown, before_append_iff hmem]
    refine and_congr_right' ⟨Or.inl, ?_⟩
    rintro (hb | rfl)
    · exact hb
    · exact ⟨o, hmem, Or.inl hp, rfl⟩
  · rw [List.drop_left,
      List.countP_cons_of_neg (p := fun o : IndexedObject => isDeltaType o.type) hd] at hlen
    rw [drop_concat]
    exact hlen

/-- **A delta whose base is known is resolved**, unless the index is too large
for its search. -/
theorem Indexes.resolve (h : Indexes w refs arr before packidx) (ho : o ∈ w.objects)
    (hd : isDeltaType o.type)
    (hr : Resolvable w (fun id => refs = true ∧ Before w arr before id) o) :
    resolveDeltifiedObject plat w.pack packidx o.toObjHdr = .ok (w.idOf o)
      ∨ (resolveDeltifiedObject plat w.pack packidx o.toObjHdr = .error .outOfMap
        ∧ refs = true ∧ 2 ^ 30 < arr.length) := by
  obtain ⟨⟨es, hg, hes, hknown, hle⟩, -⟩ := h
  refine (resolveDeltifiedObject_of_resolvable hg.toLists hes ho ((isDeltaType_iff ho).mp hd)
    (hr.mono (fun id => (hknown id).mpr))).imp_right (fun ⟨herr, hbig⟩ => ⟨herr, ?_, by omega⟩)
  obtain ⟨e, he⟩ := List.exists_mem_of_length_pos (show 0 < es.length by omega)
  exact ((hknown e.1).mp ⟨e, he, rfl⟩).1

/-- And only such a delta is. -/
theorem Indexes.resolvable (h : Indexes w refs arr before packidx) (ho : o ∈ w.objects)
    {id : Sha1} (hid : resolveDeltifiedObject plat w.pack packidx o.toObjHdr = .ok id) :
    Resolvable w (fun id => refs = true ∧ Before w arr before id) o := by
  obtain ⟨⟨es, hg, -, hknown, -⟩, -⟩ := h
  exact (resolvable_of_resolveDeltifiedObject hg.toLists ho hid).mono (fun id => (hknown id).mp)

/-- If the index is not needed it does not matter what it has. -/
theorem resolvable_refs_iff (hrefs : haveRefDeltas w.objects = refs) (ho : o ∈ w.objects) :
    Resolvable w (fun id => refs = true ∧ Before w arr before id) o
      ↔ Resolvable w (Before w arr before) o := by
  cases refs with
  | false => exact ⟨fun _ => resolvable_of_no_refs hrefs ho _,
      fun _ => resolvable_of_no_refs hrefs ho _⟩
  | true => exact ⟨fun h => h.mono (fun _ hid => hid.2), fun h => h.mono (fun _ hid => ⟨rfl, hid⟩)⟩

/-- **And its id is put into the index**, if that is needed. -/
theorem Indexes.update (h : Indexes w refs (before ++ o :: after) before packidx)
    (hlen : (before ++ o :: after).length < 2 ^ 31) (ho : o ∈ w.objects)
    (hd : isDeltaType o.type)
    (hr : Resolvable w (fun id => refs = true ∧ Before w (before ++ o :: after) before id) o) :
    (∃ packidx', updateIf refs packidx { o with id := w.idOf o, valid := true } = .ok packidx'
        ∧ Indexes w refs (before ++ o :: after) (before ++ [o]) packidx')
      ∨ (updateIf refs packidx { o with id := w.idOf o, valid := true } = .error .outOfMap
        ∧ refs = true ∧ 2 ^ 30 < (before ++ o :: after).length) := by
  obtain ⟨⟨es, hg, hes, hknown, hle⟩, hroom⟩ := h
  have hmem : o ∈ before ++ o :: after := List.mem_append_right _ List.mem_cons_self
  rw [List.drop_left,
    List.countP_cons_of_pos (p := fun o : IndexedObject => isDeltaType o.type) hd] at hle
  cases refs with
  | false =>
    refine Or.inl ⟨packidx, rfl, ⟨es, hg, hes, fun id => ?_, ?_⟩, hroom⟩
    · rw [hknown]
      exact ⟨fun h => absurd h.1 Bool.false_ne_true, fun h => absurd h.1 Bool.false_ne_true⟩
    · rw [drop_concat]
      omega
  | true =>
    have hup : updateIf true packidx { o with id := w.idOf o, valid := true }
        = updatePackidx packidx { o with id := w.idOf o, valid := true } := rfl
    rw [hup]
    rcases updatePackidx_spec hg { o with id := w.idOf o, valid := true } (hroom o ho)
      (by omega) with ⟨packidx', es', hok, hg', hroom', hes'⟩ | ⟨herr, hbig⟩
    rotate_left
    · exact Or.inr ⟨herr, rfl, by omega⟩
    have hsub : ∀ id, Known es' id ↔ Known es id ∨ w.idOf o = id := by
      intro id
      rcases hes' with hperm | ⟨rfl, e, he, hid⟩
      · constructor
        · rintro ⟨e, he, rfl⟩
          rcases List.mem_cons.mp (hperm.mem_iff.mp he) with rfl | he
          · exact Or.inr rfl
          · exact Or.inl ⟨e, he, rfl⟩
        · rintro (⟨e, he, rfl⟩ | rfl)
          · exact ⟨e, hperm.mem_iff.mpr (List.mem_cons_of_mem _ he), rfl⟩
          · exact ⟨_, hperm.mem_iff.mpr List.mem_cons_self, rfl⟩
      · refine ⟨Or.inl, ?_⟩
        rintro (h | rfl)
        · exact h
        · exact ⟨e, he, hid⟩
    refine Or.inl ⟨packidx', hok, ⟨es', hg', fun e he => ?_, fun id => ?_, ?_⟩,
      fun o' ho' => hroom' _ (hroom o' ho')⟩
    · -- the new entry is the object, and the others were there
      have hold : e ∈ es ∨ e = (w.idOf o, o.offset) := by
        rcases hes' with hperm | ⟨rfl, -⟩
        · exact (List.mem_cons.mp (hperm.mem_iff.mp he)).symm
        · exact Or.inl he
      rcases hold with he | rfl
      · obtain ⟨o', ho', rfl, hr'⟩ := hes e he
        exact ⟨o', ho', rfl, hr'.mono (fun id hid => (hsub id).mpr (Or.inl hid))⟩
      · exact ⟨o, ho, rfl, hr.mono (fun id hid => (hsub id).mpr (Or.inl ((hknown id).mpr hid)))⟩
    · rw [hsub, hknown, before_append_iff hmem]
      simp
    · rw [drop_concat]
      have hle' : es'.length ≤ es.length + 1 := by
        rcases hes' with hperm | ⟨rfl, -⟩
        · exact hperm.length_eq.le
        · exact Nat.le_succ _
      omega

/-! ## One round -/

/-- **Whether everything is resolved in the order of the array**: from some
position on, each delta has a base that is known there. -/
def InOrder (w : WellFormedPack plat) (arr before objects : List IndexedObject) : Prop :=
  ∀ xs o after, objects = xs ++ o :: after → isDeltaType o.type →
    Resolvable w (Before w arr (before ++ xs)) o

/-- The order condition, object by object: a delta needs its base before it. -/
theorem inOrder_cons_iff {objects : List IndexedObject} :
    InOrder w arr before (o :: objects)
      ↔ (isDeltaType o.type → Resolvable w (Before w arr before) o)
        ∧ InOrder w arr (before ++ [o]) objects := by
  constructor
  · refine fun h => ⟨fun hd => ?_, fun xs o' after hs hd => ?_⟩
    · have := h [] o objects rfl hd
      rwa [List.append_nil] at this
    · have := h (o :: xs) o' after (by rw [hs]; rfl) hd
      rwa [List.append_cons] at this
  · rintro ⟨ho, hrest⟩ xs o' after hs hd
    cases xs with
    | nil =>
      obtain ⟨rfl, rfl⟩ := List.cons.inj hs
      rw [List.append_nil]
      exact ho hd
    | cons x xs =>
      obtain ⟨rfl, htail⟩ := List.cons.inj hs
      have := hrest xs o' after htail hd
      rwa [← List.append_cons] at this

/-- A round resolves at most all deltas. -/
theorem resolvePass_le {pack : Pack} {objects objects' : List IndexedObject} {packidx' : Packidx}
    {n : ℕ} (h : resolvePass plat pack refs objects packidx = .ok (objects', packidx', n)) :
    n ≤ objects.countP (fun o => isDeltaType o.type) := by
  induction objects generalizing objects' packidx n with
  | nil =>
    have h := Except.ok.inj (show Except.ok _ = _ from h)
    cases h
    exact Nat.zero_le _
  | cons obj objects ih =>
    rw [List.countP_cons]
    rcases resolvePass_cons h with ⟨rest, -, hr, -⟩ | ⟨_, _, _, m, -, -, hr, -, rfl, hd, -⟩
    · exact (ih hr).trans (Nat.le_add_right _ _)
    · rw [if_pos hd]
      exact Nat.succ_le_succ (ih hr)

variable {objects : List IndexedObject}

/-- **If everything is in order one round is enough.** -/
theorem resolvePass_of_inOrder (hrefs : haveRefDeltas w.objects = refs)
    (h : Indexes w refs (before ++ objects) before packidx)
    (hmem : ∀ o ∈ before ++ objects, o ∈ w.objects) (hlen : (before ++ objects).length < 2 ^ 31)
    (hsmall : refs = true → (before ++ objects).length ≤ 2 ^ 30)
    (horder : InOrder w (before ++ objects) before objects) :
    ∃ objects' packidx', resolvePass plat w.pack refs objects packidx
        = .ok (objects', packidx', objects.countP (fun o => isDeltaType o.type))
      ∧ ∀ o ∈ objects', o.valid := by
  induction objects generalizing before packidx with
  | nil => exact ⟨[], packidx, rfl, fun o ho => absurd ho List.not_mem_nil⟩
  | cons o objects ih =>
    have ho : o ∈ w.objects := hmem o (List.mem_append_right _ List.mem_cons_self)
    obtain ⟨horder, hrest⟩ := inOrder_cons_iff.mp horder
    rw [List.append_cons] at hmem hlen hsmall hrest
    rw [resolvePass]
    by_cases hd : isDeltaType o.type
    · have hr := (resolvable_refs_iff hrefs ho).mpr (horder hd)
      have hv : ¬(¬isDeltaType o.type ∨ o.valid) := by
        rw [valid_iff ho]
        exact fun h => h.elim (fun h => h hd) (fun h => h hd)
      have hid : resolveDeltifiedObject plat w.pack packidx o.toObjHdr = .ok (w.idOf o) := by
        refine (h.resolve ho hd hr).resolve_right (fun ⟨_, htrue, hbig⟩ => ?_)
        rw [List.append_cons] at hbig
        exact absurd (hsmall htrue) (Nat.not_le.mpr hbig)
      rcases h.update (by rw [List.append_cons]; exact hlen) ho hd hr with
        ⟨packidx₁, hu, h₁⟩ | ⟨-, htrue, hbig⟩
      rotate_left
      · rw [List.append_cons] at hbig
        exact absurd (hsmall htrue) (Nat.not_le.mpr hbig)
      rw [List.append_cons] at h₁
      obtain ⟨objects', packidx', hrun, hall⟩ := ih h₁ hmem hlen hsmall hrest
      refine ⟨{ o with id := w.idOf o, valid := true } :: objects', packidx', ?_, ?_⟩
      · rw [if_neg hv, hid]
        dsimp only
        rw [hu, ok_bind, hrun,
          List.countP_cons_of_pos (p := fun o : IndexedObject => isDeltaType o.type) hd]
        rfl
      · intro o' ho'
        rcases List.mem_cons.mp ho' with rfl | ho'
        · rfl
        · exact hall o' ho'
    · have hskip := h.skip (not_not.mp (fun hp => hd ((isDeltaType_iff ho).mpr hp))) hd
      rw [List.append_cons] at hskip
      obtain ⟨objects', packidx', hrun, hall⟩ := ih hskip hmem hlen hsmall hrest
      refine ⟨o :: objects', packidx', ?_, ?_⟩
      · rw [if_pos (Or.inl hd), hrun,
          List.countP_cons_of_neg (p := fun o : IndexedObject => isDeltaType o.type) hd]
        rfl
      · intro o' ho'
        rcases List.mem_cons.mp ho' with rfl | ho'
        · exact (valid_iff ho).mpr hd
        · exact hall o' ho'

/-- **If one round is enough everything is in order.** -/
theorem inOrder_of_resolvePass (hrefs : haveRefDeltas w.objects = refs)
    (h : Indexes w refs (before ++ objects) before packidx)
    (hmem : ∀ o ∈ before ++ objects, o ∈ w.objects) (hlen : (before ++ objects).length < 2 ^ 31)
    {objects' : List IndexedObject} {packidx' : Packidx}
    (hrun : resolvePass plat w.pack refs objects packidx
      = .ok (objects', packidx', objects.countP (fun o => isDeltaType o.type))) :
    InOrder w (before ++ objects) before objects := by
  induction objects generalizing before packidx objects' with
  | nil =>
    intro xs o after hs
    exact absurd hs.symm (List.append_ne_nil_of_right_ne_nil _ (List.cons_ne_nil _ _))
  | cons o objects ih =>
    have ho : o ∈ w.objects := hmem o (List.mem_append_right _ List.mem_cons_self)
    refine inOrder_cons_iff.mpr ?_
    rw [List.append_cons] at hmem hlen
    by_cases hd : isDeltaType o.type
    · rw [List.countP_cons_of_pos (p := fun o : IndexedObject => isDeltaType o.type) hd] at hrun
      rcases resolvePass_cons hrun with
        ⟨rest, -, hr, -⟩ | ⟨id, packidx₁, _, m, hid, hu, hr, -, hm, -⟩
      · -- a delta that was skipped is missing in the count
        exact absurd (resolvePass_le hr) (Nat.not_succ_le_self _)
      · have hres := h.resolvable ho hid
        obtain rfl : id = w.idOf o := by
          rcases h.resolve ho hd hres with hok | ⟨herr, -⟩
          · exact Except.ok.inj (hid.symm.trans hok)
          · rw [hid] at herr
            exact nomatch herr
        obtain rfl := Nat.succ.inj hm
        refine ⟨fun _ => (resolvable_refs_iff hrefs ho).mp hres, ?_⟩
        rcases h.update (by rw [List.append_cons]; exact hlen) ho hd hres with
          ⟨packidx₂, hu', h₁⟩ | ⟨herr, -⟩
        · obtain rfl := Except.ok.inj (hu.symm.trans hu')
          rw [List.append_cons] at h₁ ⊢
          exact ih h₁ hmem hlen hr
        · rw [hu] at herr
          exact nomatch herr
    · rw [List.countP_cons_of_neg (p := fun o : IndexedObject => isDeltaType o.type) hd] at hrun
      refine ⟨fun hd' => absurd hd' hd, ?_⟩
      rcases resolvePass_cons hrun with ⟨rest, -, hr, -⟩ | ⟨_, _, _, _, -, -, -, -, -, hd', -⟩
      · have hskip := h.skip (not_not.mp (fun hp => hd ((isDeltaType_iff ho).mpr hp))) hd
        rw [List.append_cons] at hskip ⊢
        exact ih hskip hmem hlen hr
      · exact absurd hd' hd

/-! ## The array and the index at the start -/

variable (w)

/-- The array of objects in the second pass: sorted by id if there are ref
deltas, and otherwise in the order of the file. -/
def WellFormedPack.array : List IndexedObject := (startState plat w.pack w.objects).objects

theorem startState_of_refs (hrefs : haveRefDeltas w.objects = true) :
    startState plat w.pack w.objects = ⟨2, plat.qsort w.objects,
      addValidObjects 0 (plat.qsort w.objects) (emptyPackidx w.pack), nloose w.objects, 0⟩ := by
  unfold startState makePackidx
  rw [if_pos hrefs]

theorem startState_of_no_refs (hrefs : haveRefDeltas w.objects = false) :
    startState plat w.pack w.objects
      = ⟨2, w.objects, emptyPackidx w.pack, nloose w.objects, 0⟩ := by
  unfold startState
  rw [if_neg (by rw [hrefs]; exact Bool.false_ne_true)]

/-- The array has the objects, in another order. -/
theorem array_perm : w.array.Perm w.objects := by
  unfold WellFormedPack.array
  cases hrefs : haveRefDeltas w.objects with
  | true =>
    rw [startState_of_refs w hrefs]
    exact plat.qsort_perm w.objects
  | false =>
    rw [startState_of_no_refs w hrefs]

theorem hasRoom_emptyPackidx (ho : o ∈ w.objects) : HasRoom (emptyPackidx w.pack) o.offset :=
  hasRoom_emptyPackidx_of_lt (parse_spec (WellFormedPack.firstPass ho).parse).1 w.filesize_lt

/-- **The index the loop begins with** has the ids of the plain objects. -/
theorem indexes_startState :
    Indexes w (haveRefDeltas w.objects) w.array [] (startState plat w.pack w.objects).packidx := by
  have hperm := array_perm w
  have hlen := w.length_lt
  have hD : w.array.countP (fun o => isDeltaType o.type) + nloose w.objects = w.array.length := by
    rw [hperm.countP_eq, Nat.add_comm, nloose_add_countP, hperm.length_eq]
  cases hrefs : haveRefDeltas w.objects with
  | false =>
    have hzero : ∀ id, ¬Known [] id := fun id ⟨e, he, _⟩ => List.not_mem_nil he
    rw [startState_of_no_refs w hrefs]
    refine ⟨⟨[], grows_emptyPackidx w.pack, fun e he => absurd he List.not_mem_nil,
      fun id => ⟨fun h => absurd h (hzero id), fun h => absurd h.1 Bool.false_ne_true⟩, ?_⟩,
      fun o => hasRoom_emptyPackidx w⟩
    rw [List.length_nil, List.length_nil, List.drop_zero]
    omega
  | true =>
    have harr : w.array = plat.qsort w.objects := by
      rw [WellFormedPack.array, startState_of_refs w hrefs]
    rw [startState_of_refs w hrefs]
    dsimp only
    rw [← harr]
    have hroom : ∀ o ∈ w.array, HasRoom (emptyPackidx w.pack) o.offset :=
      fun o ho => hasRoom_emptyPackidx w (hperm.mem_iff.mp ho)
    have hentry : ∀ x ∈ w.array, x.valid → x.entry = (w.idOf x, x.offset) ∧ isPlainType x.type := by
      intro x hx hv
      have hx' := hperm.mem_iff.mp hx
      have hp : isPlainType x.type := by
        rw [← (WellFormedPack.firstPass hx').valid]
        exact hv
      exact ⟨by rw [IndexedObject.entry, WellFormedPack.id_eq_idOf hx' hp], hp⟩
    refine ⟨⟨(w.array.filter (·.valid)).map IndexedObject.entry, ?_, fun e he => ?_, fun id => ?_,
      ?_⟩,
      fun o ho => hasRoom_addValidObjects (hasRoom_emptyPackidx w ho) 0 w.array⟩
    · have hsorted : SortedBy IdxEntry.key
        ((w.array.filter (·.valid)).map IndexedObject.entry) := by
        rw [SortedBy, List.pairwise_map, harr]
        exact List.Pairwise.filter _ (plat.qsort_sorted w.objects)
      refine grows_addValidObjects (grows_emptyPackidx w.pack) hroom hsorted ?_
      rw [hperm.length_eq, List.length_nil]
      omega
    · obtain ⟨x, hx, rfl⟩ := List.mem_map.mp he
      obtain ⟨hx, hv⟩ := List.mem_filter.mp hx
      obtain ⟨hent, hp⟩ := hentry x hx hv
      exact ⟨x, hperm.mem_iff.mp hx, hent, .plain hp⟩
    · constructor
      · rintro ⟨e, he, rfl⟩
        obtain ⟨x, hx, rfl⟩ := List.mem_map.mp he
        obtain ⟨hx, hv⟩ := List.mem_filter.mp hx
        obtain ⟨hent, hp⟩ := hentry x hx hv
        exact ⟨rfl, x, hx, Or.inl hp, by rw [hent]⟩
      · rintro ⟨-, x, hx, hp | hnil, rfl⟩
        · have hv : x.valid = true := by
            rw [(WellFormedPack.firstPass (hperm.mem_iff.mp hx)).valid]
            exact hp
          exact ⟨x.entry, List.mem_map.mpr ⟨x, List.mem_filter.mpr ⟨hx, hv⟩, rfl⟩,
            by rw [(hentry x hx hv).1]⟩
        · exact absurd hnil List.not_mem_nil
    · have hplain : (w.array.filter (·.valid)).length = nloose w.objects := by
        rw [← List.countP_eq_length_filter, hperm.countP_eq, nloose]
        exact List.countP_congr (fun o ho => by rw [(WellFormedPack.firstPass ho).valid])
      rw [List.length_map, hplain, List.length_nil, List.drop_zero]
      omega

/-! ## The loop -/

/-- **The second pass terminates normally**: the loop ends, with all objects
counted and all of them valid. -/
def TerminatesNormally : Prop :=
  ∃ fuel objects, secondPass plat w.pack w.objects fuel = some (.ok objects)
    ∧ ∀ o ∈ objects, o.valid

/-- **Everything can be resolved in the order of the array**: no delta is
before the position where rounds begin, and the base id that a delta needs,
once links by position are followed, is that of a plain object or of a delta
earlier in the array. -/
def ResolvesInOrder : Prop :=
  ∀ before o after, w.array = before ++ o :: after → isDeltaType o.type →
    firstDeltaIdx w.objects ≤ before.length ∧ Resolvable w (Before w w.array before) o

/-- The part of the array before the first round begins, and that of a round. -/
theorem resolvesInOrder_iff :
    ResolvesInOrder w ↔ (∀ o ∈ w.array.take (firstDeltaIdx w.objects), ¬isDeltaType o.type)
      ∧ InOrder w w.array (w.array.take (firstDeltaIdx w.objects))
        (w.array.drop (firstDeltaIdx w.objects)) := by
  unfold ResolvesInOrder
  generalize firstDeltaIdx w.objects = first
  have hsplit := List.take_append_drop first w.array
  constructor
  · refine fun h => ⟨fun o ho hd => ?_, fun xs o after hs hd => ?_⟩
    · obtain ⟨xs, ys, hs⟩ := List.append_of_mem ho
      have hle := (h xs o (ys ++ w.array.drop first)
        (hsplit.symm.trans (by rw [hs, List.append_assoc]; rfl)) hd).1
      have hlen := congrArg List.length hs
      rw [List.length_take, List.length_append, List.length_cons] at hlen
      omega
    · refine (h (w.array.take first ++ xs) o after ?_ hd).2
      rw [List.append_assoc, ← hs, hsplit]
  · rintro ⟨hnone, horder⟩ before o after hs hd
    have hle : first ≤ before.length := by
      by_contra hlt
      refine hnone o ?_ hd
      rw [hs, List.take_append, List.take_of_length_le (by omega)]
      refine List.mem_append_right _ ?_
      obtain ⟨k, hk⟩ : ∃ k, first - before.length = k + 1 := ⟨first - before.length - 1, by omega⟩
      rw [hk, List.take_succ_cons]
      exact List.mem_cons_self
    refine ⟨hle, ?_⟩
    have hbefore : w.array.take first ++ before.drop first = before := by
      rw [hs, List.take_append_of_le_length hle, List.take_append_drop]
    have := horder (before.drop first) o after
      (by rw [hs, List.drop_append_of_le_length hle]) hd
    rwa [hbefore] at this

variable {w}

theorem start_eq : startState plat w.pack w.objects
    = ⟨2, w.array, (startState plat w.pack w.objects).packidx, nloose w.objects, 0⟩ := by
  cases hrefs : haveRefDeltas w.objects with
  | true => rw [WellFormedPack.array, startState_of_refs w hrefs]
  | false => rw [WellFormedPack.array, startState_of_no_refs w hrefs]

/-- The second pass succeeds when its loop ends with every object resolved. -/
theorem secondPass_eq_ok_iff {fuel : ℕ} :
    secondPass plat w.pack w.objects fuel = some (.ok objects)
      ↔ ∃ s, passLoop plat w.pack (haveRefDeltas w.objects) w.objects.length
          (firstDeltaIdx w.objects) fuel (startState plat w.pack w.objects) = some (.ok s)
        ∧ nloose w.objects + s.nresolved = w.objects.length ∧ s.objects = objects := by
  unfold secondPass
  rw [Option.map_eq_some_iff]
  constructor
  · rintro ⟨r, hl, h⟩
    obtain ⟨s, rfl, hs⟩ := bind_eq_ok_iff.mp h
    refine ⟨s, hl, ?_⟩
    dsimp only at hs
    split at hs
    · exact nomatch hs
    · next heq => exact ⟨not_not.mp heq, Except.ok.inj hs⟩
  · rintro ⟨s, hl, heq, rfl⟩
    exact ⟨.ok s, hl, by rw [ok_bind, if_neg (not_not.mpr heq)]; rfl⟩

/-- The index at the position where rounds begin, if no delta is before it. -/
theorem indexes_first
    (hnone : ∀ o ∈ w.array.take (firstDeltaIdx w.objects), ¬isDeltaType o.type) :
    Indexes w (haveRefDeltas w.objects)
      (w.array.take (firstDeltaIdx w.objects) ++ w.array.drop (firstDeltaIdx w.objects))
      (w.array.take (firstDeltaIdx w.objects)) (startState plat w.pack w.objects).packidx := by
  have hsplit := List.take_append_drop (firstDeltaIdx w.objects) w.array
  obtain ⟨⟨es, hg, hes, hknown, hlen⟩, hroom⟩ := indexes_startState w
  refine ⟨⟨es, hg, hes, fun id => (hknown id).trans (and_congr_right' ?_), ?_⟩, hroom⟩
  · rw [hsplit]
    constructor
    · rintro ⟨x, hx, hp | hnil, rfl⟩
      · exact ⟨x, hx, Or.inl hp, rfl⟩
      · exact absurd hnil List.not_mem_nil
    · rintro ⟨x, hx, hp, rfl⟩
      refine ⟨x, hx, Or.inl (hp.elim id (fun hmem => ?_)), rfl⟩
      have hobj := (array_perm w).mem_iff.mp hx
      exact not_not.mp (fun hp => hnone x hmem ((isDeltaType_iff hobj).mpr hp))
  · rw [List.drop_left, hsplit]
    rw [List.length_nil, List.drop_zero, ← hsplit, List.countP_append, hsplit] at hlen
    omega

/-- **Where everything is in order the second pass ends**: at once if there are
no deltas, and otherwise after its first round. -/
theorem terminatesNormally_of_resolvesInOrder (h : ResolvesInOrder w)
    (hsmall : haveRefDeltas w.objects = true → w.objects.length ≤ 2 ^ 30) :
    TerminatesNormally w := by
  obtain ⟨hnone, horder⟩ := (resolvesInOrder_iff w).mp h
  have hperm := array_perm w
  have hcount := nloose_add_countP (w := w)
  have hsplit := List.take_append_drop (firstDeltaIdx w.objects) w.array
  have hvalid : ∀ o ∈ w.array, ¬isDeltaType o.type → o.valid :=
    fun o ho hd => (valid_iff (hperm.mem_iff.mp ho)).mpr hd
  by_cases hdone : nloose w.objects = w.objects.length
  · refine ⟨1, _, secondPass_eq_ok_iff.mpr ⟨_, ?_, ?_, rfl⟩,
      fun o ho => hvalid o ho (fun hd => ?_)⟩
    · rw [start_eq, passLoop, if_pos hdone]
    · exact hdone
    · have hpos := List.countP_pos_iff (p := fun o : IndexedObject => isDeltaType o.type).mpr
        ⟨o, hperm.mem_iff.mp ho, hd⟩
      omega
  · obtain ⟨objects', packidx', hrun, hall⟩ := resolvePass_of_inOrder rfl (indexes_first hnone)
      (fun o ho => hperm.mem_iff.mp (by rwa [hsplit] at ho))
      (by rw [hsplit, hperm.length_eq]; exact w.length_lt)
      (fun hrefs => by rw [hsplit, hperm.length_eq]; exact hsmall hrefs)
      (by rw [hsplit]; exact horder)
    have hall_deltas : (w.array.drop (firstDeltaIdx w.objects)).countP
        (fun o => isDeltaType o.type) = w.objects.countP (fun o => isDeltaType o.type) := by
      rw [← hperm.countP_eq, ← hsplit, List.countP_append, hsplit,
        List.countP_eq_zero.mpr hnone, Nat.zero_add]
    rw [hall_deltas] at hrun
    refine ⟨2, w.array.take (firstDeltaIdx w.objects) ++ objects', secondPass_eq_ok_iff.mpr
      ⟨⟨3, w.array.take (firstDeltaIdx w.objects) ++ objects', packidx', w.objects.length,
        w.objects.countP (fun o => isDeltaType o.type)⟩, ?_, hcount, rfl⟩, ?_⟩
    · rw [start_eq, passLoop, if_neg hdone, hrun]
      dsimp only
      rw [if_neg (by omega), passLoop, Nat.zero_add, if_pos hcount, hcount]
    · intro o ho
      rcases List.mem_append.mp ho with ho | ho
      · exact hvalid o (List.mem_of_mem_take ho) (hnone o ho)
      · exact hall o ho

/-- **Where it ends, everything is in order**: the first round resolved all
deltas, because otherwise the count would be ahead from then on. -/
theorem resolvesInOrder_of_terminatesNormally (h : TerminatesNormally w) : ResolvesInOrder w := by
  obtain ⟨fuel, objects, hsecond, -⟩ := h
  obtain ⟨s, hl, hresolved, -⟩ := secondPass_eq_ok_iff.mp hsecond
  have hperm := array_perm w
  have hcount := nloose_add_countP (w := w)
  have hsplit := List.take_append_drop (firstDeltaIdx w.objects) w.array
  have hparts : (w.array.take (firstDeltaIdx w.objects)).countP (fun o => isDeltaType o.type)
      + (w.array.drop (firstDeltaIdx w.objects)).countP (fun o => isDeltaType o.type)
      = w.objects.countP (fun o => isDeltaType o.type) := by
    rw [← List.countP_append, hsplit, hperm.countP_eq]
  cases fuel with
  | zero => exact nomatch hl
  | succ fuel =>
    by_cases hdone : nloose w.objects = w.objects.length
    · -- there are no deltas
      have hzero : w.array.countP (fun o => isDeltaType o.type) = 0 := by
        rw [hperm.countP_eq]
        omega
      intro before o after hs hd
      exact absurd hd (List.countP_eq_zero.mp hzero o
        (by rw [hs]; exact List.mem_append_right _ List.mem_cons_self))
    have hloop := hl
    rw [start_eq, passLoop, if_neg hdone] at hl
    dsimp only at hl
    split at hl
    · exact nomatch hl
    next objects' packidx' n hrun =>
    have hle := resolvePass_le hrun
    rw [if_neg (by omega)] at hl
    rcases Nat.eq_zero_or_pos n with rfl | hpos
    · -- nothing was resolved, and the index cannot grow any more
      rw [start_eq] at hloop
      exact absurd hloop (passLoop_of_zero hdone rfl hrun)
    · by_cases hn : n = w.objects.countP (fun o => isDeltaType o.type)
      · have hnone : ∀ o ∈ w.array.take (firstDeltaIdx w.objects), ¬isDeltaType o.type :=
          List.countP_eq_zero.mp (by omega)
        obtain rfl : n = (w.array.drop (firstDeltaIdx w.objects)).countP
          (fun o => isDeltaType o.type) := by omega
        have horder := inOrder_of_resolvePass rfl (indexes_first hnone)
          (fun o ho => hperm.mem_iff.mp (by rwa [hsplit] at ho))
          (by rw [hsplit, hperm.length_eq]; exact w.length_lt) hrun
        rw [hsplit] at horder
        exact (resolvesInOrder_iff w).mpr ⟨hnone, horder⟩
      · have hahead : Ahead w.objects.length (nloose w.objects)
            ⟨2 + 1, w.array.take (firstDeltaIdx w.objects) ++ objects', packidx',
              nloose w.objects + (0 + n), 0 + n⟩ := by
          refine ⟨?_, ?_, ?_⟩
          · show 0 < 0 + n
            omega
          · exact Nat.le_refl _
          · show nloose w.objects + (0 + n) = w.objects.length → _
            intro heq
            omega
        exact absurd hresolved (hahead.passLoop hl)

variable (w) in
/-- **When the second pass terminates normally.** If it does then everything
can be resolved in the order of the array. Conversely, that is enough, with one
limit if there are ref deltas: the binary search in the index adds two
positions as numbers of type `int`, and needs an index of at most `2 ^ 30`
entries. -/
theorem terminatesNormally_iff :
    (TerminatesNormally w → ResolvesInOrder w)
      ∧ (ResolvesInOrder w → (haveRefDeltas w.objects = true → w.objects.length ≤ 2 ^ 30) →
        TerminatesNormally w) :=
  ⟨resolvesInOrder_of_terminatesNormally, terminatesNormally_of_resolvesInOrder⟩

/-! ## A base that is placed later -/

/-- SHA1, on the objects of the pack below. -/
def laterBaseSha1 (b : Bytes) : Sha1 :=
  if b = [98, 108, 111, 98, 32, 49, 0, 65] then
    ⟨[140, 126, 90, 102, 127, 27, 119, 24, 71, 254, 136, 192, 28, 61, 227, 68, 19, 161, 178, 32],
      rfl⟩
  else if b = [98, 108, 111, 98, 32, 49, 0, 66] then
    ⟨[115, 113, 244, 122, 111, 139, 210, 58, 143, 161, 168, 178, 169, 71, 156, 221, 118, 56, 14,
      84],
      rfl⟩
  else if b = [98, 108, 111, 98, 32, 49, 0, 67] then
    ⟨[150, 216, 12, 214, 196, 231, 21, 141, 190, 189, 8, 73, 244, 251, 124, 229, 19, 229, 130, 140],
      rfl⟩
  else unknownId

/-- Stored blocks, and a sort that is stable. -/
def laterBasePlatform : Platform where
  inflate := inflateStored
  sha1 := laterBaseSha1
  qsort := List.insertionSort (fun a b => idKey a.id.val ≤ idKey b.id.val)
  qsort_perm := List.perm_insertionSort _
  qsort_sorted := fun objects =>
    haveI : Std.Total (fun a b : IndexedObject => idKey a.id.val ≤ idKey b.id.val) :=
      ⟨fun _ _ => Nat.le_total _ _⟩
    haveI : IsTrans IndexedObject (fun a b => idKey a.id.val ≤ idKey b.id.val) :=
      ⟨fun _ _ _ => Nat.le_trans⟩
    List.pairwise_insertionSort _ objects
  scratch := fun _ => ⟨⟨fun _ => 0, fun _ => 0, fun _ => 0⟩, ⟨[], []⟩⟩

/-- Three objects: the blob `A`, a ref delta that makes `C` of `B`, and a ref
delta that makes `B` of `A`. -/
def laterBaseFile : Pack where
  file := [80, 65, 67, 75, 0, 0, 0, 2, 0, 0, 0, 3,
    49, 120, 1, 1, 1, 0, 254, 255, 65, 0, 66, 0, 66,
    116, 115, 113, 244, 122, 111, 139, 210, 58, 143, 161, 168, 178, 169, 71, 156, 221, 118, 56, 14,
    84, 120, 1, 1, 4, 0, 251, 255, 1, 1, 1, 67, 0, 80, 0, 71,
    116, 140, 126, 90, 102, 127, 27, 119, 24, 71, 254, 136, 192, 28, 61, 227, 68, 19, 161, 178,
    32, 120, 1, 1, 4, 0, 251, 255, 1, 1, 1, 66, 0, 79, 0, 70,
    166, 76, 211, 86, 236, 153, 99, 42, 250, 226, 78, 228, 35, 242, 120, 251, 216, 101, 70, 74]
  mapped := true

/-- The objects after the first pass: a blob, and two deltas of which the first needs the second. -/
def laterBaseObjects : List IndexedObject :=
  [⟨⟨12, 1, GOT_OBJ_TYPE_BLOB, 1⟩, laterBaseSha1 [98, 108, 111, 98, 32, 49, 0, 65], true⟩,
    ⟨⟨25, 1, GOT_OBJ_TYPE_REF_DELTA, 4⟩, unknownId, false⟩,
    ⟨⟨61, 1, GOT_OBJ_TYPE_REF_DELTA, 4⟩, unknownId, false⟩]

/-- What the objects hold: the delta whose base comes later has the greater rank. -/
def laterBaseContents : Contents where
  content := fun off => if off = 12 then [65] else if off = 25 then [67] else [66]
  kind := fun _ => GOT_OBJ_TYPE_BLOB
  rank := fun off => if off = 12 then 0 else if off = 25 then 2 else 1

theorem forall_laterBaseObjects {p : IndexedObject → Prop} :
    (∀ o ∈ laterBaseObjects, p o) ↔ p laterBaseObjects[0] ∧ p laterBaseObjects[1]
      ∧ p laterBaseObjects[2] := by
  simp [laterBaseObjects]

/-- **A well-formed pack** whose second object names the third as its base. -/
def laterBasePack : WellFormedPack laterBasePlatform where
  pack := laterBaseFile
  objects := laterBaseObjects
  contents := laterBaseContents
  read := forall_laterBaseObjects.mpr ⟨rfl, rfl, rfl⟩
  ordered := by decide
  length_lt := by decide
  filesize_lt := by decide
  rank_lt := by decide
  plain := forall_laterBaseObjects.mpr ⟨fun _ => ⟨rfl, rfl, rfl, by decide⟩,
    fun h => absurd h (by decide), fun h => absurd h (by decide)⟩
  offsetDelta := forall_laterBaseObjects.mpr
    ⟨fun h => absurd h (by decide), fun h => absurd h (by decide), fun h => absurd h (by decide)⟩
  refDelta := forall_laterBaseObjects.mpr
    ⟨fun h => absurd h (by decide),
      fun _ => ⟨laterBaseSha1 [98, 108, 111, 98, 32, 49, 0, 66], rfl,
        ⟨laterBaseObjects[2], by decide, rfl⟩, forall_laterBaseObjects.mpr
        ⟨fun h => absurd h (by decide), fun h => absurd h (by decide), fun _ =>
          ⟨by decide, rfl, by decide, [1, 1, 1, 67], [.insert [67]], rfl, rfl, by decide, rfl⟩⟩⟩,
      fun _ => ⟨laterBaseSha1 [98, 108, 111, 98, 32, 49, 0, 65], rfl,
        ⟨laterBaseObjects[0], by decide, rfl⟩, forall_laterBaseObjects.mpr
        ⟨fun _ => ⟨by decide, rfl, by decide, [1, 1, 1, 66], [.insert [66]], rfl, rfl, by decide,
          rfl⟩,
          fun h => absurd h (by decide), fun h => absurd h (by decide)⟩⟩⟩

theorem array_laterBasePack : laterBasePack.array = laterBaseObjects := by
  rw [WellFormedPack.array, startState_of_refs laterBasePack (by decide)]
  rfl

/-- **It cannot be indexed**: the second object is resolved in the second
round, after which the third one was counted twice. -/
theorem laterBasePack_not_terminatesNormally : ¬TerminatesNormally laterBasePack := by
  intro h
  have horder := (resolvesInOrder_of_terminatesNormally h [laterBaseObjects[0]] laterBaseObjects[1]
    [laterBaseObjects[2]] array_laterBasePack (by decide)).2
  cases horder with
  | plain hp => exact absurd hp (by decide)
  | offsetDelta ht => exact absurd ht (by decide)
  | @refDelta _ id _ hid hknown =>
    have hbase : laterBasePack.pack.idAt (laterBaseObjects[1].offset + laterBaseObjects[1].tslen)
        = .ok (laterBaseSha1 [98, 108, 111, 98, 32, 49, 0, 66]) := rfl
    obtain rfl := Except.ok.inj (hbase.symm.trans hid)
    -- the only object that is known before it is the blob
    have hnone : ∀ x ∈ laterBaseObjects, isPlainType x.type ∨ x ∈ [laterBaseObjects[0]] →
        laterBasePack.idOf x ≠ laterBaseSha1 [98, 108, 111, 98, 32, 49, 0, 66] :=
      forall_laterBaseObjects.mpr ⟨fun _ => by decide, fun h => absurd h (by decide),
        fun h => absurd h (by decide)⟩
    obtain ⟨x, hx, hbefore, hx'⟩ := hknown
    rw [array_laterBasePack] at hx
    exact hnone x hx hbefore hx'

end Got

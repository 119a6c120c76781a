import Mathlib.Data.List.Basic

/-!
# The only one that is wanted

Candidates are gone through one after the other, to find the only one that is wanted. The
same one may come several times. Once there is one, it is enough that another one comes
which is wanted too, and then there is no only one.

Some candidates are not asked whether they are wanted once there is one, and stand against
it in any case. So what is found depends on the order of the candidates, and `finds_iff` says
when it is right of everything that there is, of which the candidates may be a part.
-/

namespace UniqueMatch

variable {ι ε : Type} [DecidableEq ι]

/-- **A candidate.** -/
structure Candidate (ι : Type) where
  id : ι
  /-- Whether it stands against any other one. -/
  unasked : Bool

variable (wanted : ι → Bool) (ambiguous nothing : ε)

/-- A candidate stands against one that was found. -/
def StandsAgainst (u : ι) (c : Candidate ι) : Prop := c.id ≠ u ∧ (wanted c.id ∨ c.unasked)

instance (u : ι) (c : Candidate ι) : Decidable (StandsAgainst wanted u c) :=
  inferInstanceAs (Decidable (_ ∧ _))

/-- What is found after one more candidate. -/
def meet (u : Option ι) (c : Candidate ι) : Except ε (Option ι) :=
  match u with
  | none => .ok (if wanted c.id then some c.id else none)
  | some u => if StandsAgainst wanted u c then .error ambiguous else .ok (some u)

/-- **What is found after all of them.** -/
def meetAll : List (Candidate ι) → Option ι → Except ε (Option ι)
  | [], u => .ok u
  | c :: cs, u =>
    match meet wanted ambiguous u c with
    | .error e => .error e
    | .ok u => meetAll cs u

/-- There has to be one. -/
def found : Except ε (Option ι) → Except ε ι
  | .error e => .error e
  | .ok none => .error nothing
  | .ok (some id) => .ok id

/-- **The only one is found**, if there is one. -/
structure Finds (M : ι → Prop) (r : Except ε ι) : Prop where
  one : ∀ id, r = .ok id ↔ M id ∧ ∀ id', M id' → id' = id
  many : r = .error ambiguous ↔ ∃ a b, M a ∧ M b ∧ a ≠ b
  none : r = .error nothing ↔ ∀ id, ¬M id

variable {wanted : ι → Bool} {ambiguous nothing : ε} {u : Option ι} {id : ι}
  {cs cs' before after : List (Candidate ι)} {c : Candidate ι}

/-- Candidates are met one list after the other. -/
theorem meetAll_append (cs cs' : List (Candidate ι)) (u : Option ι) :
    meetAll wanted ambiguous (cs ++ cs') u
      = meetAll wanted ambiguous cs u >>= meetAll wanted ambiguous cs' := by
  induction cs generalizing u with
  | nil => rfl
  | cons c cs ih =>
    rw [List.cons_append, meetAll, meetAll]
    cases meet wanted ambiguous u c with
    | error e => rfl
    | ok u => exact ih u

/-- Candidates that are not wanted change nothing as long as there is no other one. -/
theorem meetAll_unwanted (h : ∀ c ∈ cs, ¬wanted c.id) :
    meetAll wanted ambiguous cs none = .ok none := by
  induction cs with
  | nil => rfl
  | cons c cs ih =>
    rw [meetAll, meet, if_neg (h c List.mem_cons_self)]
    exact ih fun c' hc' => h c' (List.mem_cons_of_mem c hc')

/-- **Once there is one**, it remains as long as none stands against it. -/
theorem meetAll_some :
    meetAll wanted ambiguous cs (some id)
      = if ∃ c ∈ cs, StandsAgainst wanted id c then .error ambiguous else .ok (some id) := by
  induction cs with
  | nil => exact (if_neg (by simp)).symm
  | cons c cs ih =>
    rw [meetAll, meet]
    by_cases hc : StandsAgainst wanted id c
    · rw [if_pos hc, if_pos ⟨c, List.mem_cons_self, hc⟩]
    · rw [if_neg hc]
      dsimp only
      rw [ih]
      refine if_congr ⟨?_, ?_⟩ rfl rfl
      · rintro ⟨c', hc', h⟩
        exact ⟨c', List.mem_cons_of_mem c hc', h⟩
      · rintro ⟨c', hc', h⟩
        obtain rfl | hc' := List.mem_cons.mp hc'
        · exact absurd h hc
        · exact ⟨c', hc', h⟩

/-- **The first one that is wanted** is found, if none behind it stands against it. -/
theorem meetAll_first (hbefore : ∀ b ∈ before, ¬wanted b.id) (hc : wanted c.id) :
    meetAll wanted ambiguous (before ++ c :: after) none
      = if ∃ a ∈ after, StandsAgainst wanted c.id a then .error ambiguous
        else .ok (some c.id) := by
  rw [meetAll_append, meetAll_unwanted hbefore]
  show meetAll wanted ambiguous (c :: after) none = _
  rw [meetAll, meet, if_pos hc]
  exact meetAll_some

omit [DecidableEq ι] in
/-- One of them is the first one that is wanted. -/
theorem exists_first (h : ∃ c ∈ cs, wanted c.id) :
    ∃ before c after, cs = before ++ c :: after ∧ (∀ b ∈ before, ¬wanted b.id) ∧ wanted c.id := by
  induction cs with
  | nil =>
    obtain ⟨c, hc, -⟩ := h
    exact absurd hc List.not_mem_nil
  | cons c cs ih =>
    by_cases hc : wanted c.id
    · exact ⟨[], c, cs, rfl, fun b hb => absurd hb List.not_mem_nil, hc⟩
    · obtain ⟨c', hc', h⟩ := h
      obtain hc' | hc' := List.mem_cons.mp hc'
      · exact absurd (hc' ▸ h) hc
      obtain ⟨before, c'', after, rfl, hbefore, hwanted⟩ := ih ⟨c', hc', h⟩
      refine ⟨c :: before, c'', after, rfl, fun b hb => ?_, hwanted⟩
      obtain rfl | hb := List.mem_cons.mp hb
      · exact hc
      · exact hbefore b hb

/-- **When what is found is right** of everything that there is: nothing is wanted, or the
first candidate that is wanted has one behind it which stands against it if and only if
something else is wanted. -/
theorem finds_iff {M : ι → Prop} (hne : ambiguous ≠ nothing)
    (hM : ∀ c ∈ cs, wanted c.id → M c.id) :
    Finds ambiguous nothing M (found nothing (meetAll wanted ambiguous cs none))
      ↔ (∀ id, ¬M id) ∨ ∃ before c after, cs = before ++ c :: after
        ∧ (∀ b ∈ before, ¬wanted b.id) ∧ wanted c.id
        ∧ ((∃ id, M id ∧ id ≠ c.id) ↔ ∃ a ∈ after, StandsAgainst wanted c.id a) := by
  constructor
  · intro h
    by_cases hex : ∃ c ∈ cs, wanted c.id
    · obtain ⟨before, c, after, rfl, hbefore, hwanted⟩ := exists_first hex
      refine Or.inr ⟨before, c, after, rfl, hbefore, hwanted, ?_⟩
      have hc := hM c (List.mem_append_right before List.mem_cons_self) hwanted
      rw [meetAll_first hbefore hwanted] at h
      constructor
      · rintro ⟨id, hid, hother⟩
        have hmany := h.many.mpr ⟨id, c.id, hid, hc, hother⟩
        by_contra hnone
        rw [if_neg hnone] at hmany
        cases hmany
      · intro hsome
        rw [if_pos hsome] at h
        obtain ⟨a, b, ha, hb, hab⟩ := h.many.mp rfl
        by_cases hac : a = c.id
        · exact ⟨b, hb, fun hbc => hab (hac.trans hbc.symm)⟩
        · exact ⟨a, ha, hac⟩
    · rw [meetAll_unwanted fun c hc hw => hex ⟨c, hc, hw⟩] at h
      exact Or.inl (h.none.mp rfl)
  · rintro (hnone | ⟨before, c, after, rfl, hbefore, hwanted, hiff⟩)
    · rw [meetAll_unwanted fun c hc hw => hnone c.id (hM c hc hw)]
      refine ⟨fun id => iff_of_false (fun h => by cases h) fun h => hnone id h.1,
        iff_of_false (fun h => hne (Except.error.inj h).symm) ?_, iff_of_true rfl hnone⟩
      rintro ⟨a, -, ha, -⟩
      exact hnone a ha
    · have hc := hM c (List.mem_append_right before List.mem_cons_self) hwanted
      rw [meetAll_first hbefore hwanted]
      by_cases hother : ∃ id, M id ∧ id ≠ c.id
      · rw [if_pos (hiff.mp hother)]
        obtain ⟨id, hid, hidc⟩ := hother
        refine ⟨fun id' => iff_of_false (fun h => by cases h) fun h => ?_,
          iff_of_true rfl ⟨id, c.id, hid, hc, hidc⟩,
          iff_of_false (fun h => hne (Except.error.inj h)) fun h => h c.id hc⟩
        exact hidc ((h.2 id hid).trans (h.2 c.id hc).symm)
      · rw [if_neg fun h => hother (hiff.mpr h)]
        have honly : ∀ id, M id → id = c.id := fun id hid =>
          Classical.not_not.mp fun hidc => hother ⟨id, hid, hidc⟩
        refine ⟨fun id => ⟨fun h => ?_, fun h => ?_⟩, iff_of_false (fun h => by cases h) ?_,
          iff_of_false (fun h => by cases h) fun h => h c.id hc⟩
        · rw [← Except.ok.inj h]
          exact ⟨hc, honly⟩
        · exact congrArg Except.ok (honly id h.1).symm
        · rintro ⟨a, b, ha, hb, hab⟩
          exact hab ((honly a ha).trans (honly b hb).symm)

end UniqueMatch

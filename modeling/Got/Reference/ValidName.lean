import Got.Reference.Write

/-!
# Names of references

A name is a path of components with slashes between them. What may be in it is checked in one pass,
which looks at one character and the one behind it, and at the end of a component back at its last
five characters. `git check-ref-format` says the same of the components and of the whole name:
these are the names that are accepted (`isValidRefName_iff`), of any length.
-/

namespace Got

variable {c : UInt8} {s seg name first : Bytes} {others : List Bytes}

/-! ## The format -/

/-- **A component of a name.** -/
structure IsRefComponent (seg : Bytes) : Prop where
  ne_nil : seg ≠ []
  not_dot : ¬text "." <+: seg
  not_lock : ¬text ".lock" <:+ seg

/-- **`git check-ref-format --allow-onelevel`** -/
structure CheckRefFormat (name : Bytes) : Prop where
  components : ∀ seg ∈ name.splitOn 0x2f, IsRefComponent seg
  not_dots : ¬text ".." <:+: name
  not_at_brace : ¬text "@\x7b" <:+: name
  not_cntrl : ∀ c ∈ name, ¬(c < 0x20 ∨ c = 0x7f)
  not_forbidden : ∀ c ∈ name, c ∉ text " ~^:?*[\\"
  not_dot_last : ¬text "." <:+ name
  ne_at : name ≠ text "@"

/-! ## One pass -/

/-- **What is said of one character**, and of the rest of the name behind it. -/
structure IsRefChar (c : UInt8) (s : Bytes) : Prop where
  not_dots : ¬text ".." <+: c :: s
  not_at_brace : ¬text "@\x7b" <+: c :: s
  not_cntrl : ¬(c < 0x20 ∨ c = 0x7f)
  not_forbidden : c ∉ text " ~^:?*[\\"
  not_dot_last : ¬(c = 0x2e ∧ s = [])

/-- Two slashes are nothing but a component which is empty. -/
theorem forbiddenSeq_any : (forbiddenSeq.any fun seq => seq.isPrefixOf (c :: s)) = true
    ↔ (c = 0x2f ∧ s.head? = some 0x2f) ∨ text ".." <+: c :: s ∨ text "@\x7b" <+: c :: s := by
  have hslashes : text "//" <+: c :: s ↔ c = 0x2f ∧ s.head? = some 0x2f := by
    rw [show text "//" = [0x2f, 0x2f] from rfl, List.cons_prefix_cons,
      List.singleton_prefix_iff_head?_eq_some, eq_comm]
  rw [List.any_eq_true, ← hslashes]
  simp only [forbiddenSeq, List.isPrefixOf_iff_prefix, List.mem_cons, List.not_mem_nil, or_false,
    exists_eq_or_imp, exists_eq_left]

/-- **What is rejected at one character.** -/
theorem rejects_iff : (c ∈ forbidden ∨ (forbiddenSeq.any fun seq => seq.isPrefixOf (c :: s)) = true
      ∨ iscntrl c = true ∨ (c = 0x2e ∧ s = []))
    ↔ (c = 0x2f ∧ s.head? = some 0x2f) ∨ ¬IsRefChar c s := by
  rw [forbiddenSeq_any, iscntrl, decide_eq_true_eq]
  constructor
  · rintro (h | (h | h | h) | h | h)
    · exact Or.inr fun hok => hok.not_forbidden h
    · exact Or.inl h
    · exact Or.inr fun hok => hok.not_dots h
    · exact Or.inr fun hok => hok.not_at_brace h
    · exact Or.inr fun hok => hok.not_cntrl h
    · exact Or.inr fun hok => hok.not_dot_last h
  · rintro (h | h)
    · exact Or.inr (Or.inl (Or.inl h))
    · by_contra hno
      rw [not_or, not_or, not_or, not_or, not_or] at hno
      obtain ⟨hforbidden, ⟨-, hdots, hbrace⟩, hcntrl, hlast⟩ := hno
      exact h ⟨hdots, hbrace, hcntrl, hforbidden, hlast⟩

/-- **One step of the pass.** -/
theorem isValidFrom_cons : isValidFrom seg (c :: s) = true
    ↔ IsRefChar c s ∧ if c = 0x2f then
        isBadSegment s = false ∧ ¬text ".lock" <:+ seg ∧ isValidFrom [] s = true
      else isValidFrom (seg ++ [c]) s = true := by
  rw [isValidFrom]
  by_cases hok : IsRefChar c s
  · rw [and_iff_right hok]
    by_cases hslashes : c = 0x2f ∧ s.head? = some 0x2f
    · rw [if_pos (rejects_iff.mpr (Or.inl hslashes)), if_pos hslashes.1]
      have hbad : isBadSegment s = true := decide_eq_true (Or.inr (Or.inr hslashes.2))
      exact iff_of_false Bool.false_ne_true fun h => Bool.false_ne_true (h.1.symm.trans hbad)
    · rw [if_neg fun hc => (rejects_iff.mp hc).elim hslashes (absurd hok)]
      by_cases hslash : c = 0x2f
      · rw [if_pos hslash, if_pos hslash]
        by_cases hseg : isBadSegment s = true ∨ GOT_LOCKFILE_SUFFIX <:+ seg
        · rw [if_pos hseg]
          refine iff_of_false Bool.false_ne_true fun h => hseg.elim (fun hbad => ?_) h.2.1
          exact Bool.false_ne_true (h.1.symm.trans hbad)
        · rw [if_neg hseg]
          rw [not_or, Bool.not_eq_true] at hseg
          exact ⟨fun h => ⟨hseg.1, hseg.2, h⟩, fun h => h.2.2⟩
      · rw [if_neg hslash, if_neg hslash]
  · rw [if_pos (rejects_iff.mpr (Or.inr hok))]
    exact iff_of_false Bool.false_ne_true fun h => hok h.1

/-- **A component begins** where the pass says so. -/
theorem isBadSegment_eq_false_iff (h : s.splitOn 0x2f = first :: others) :
    isBadSegment s = false ↔ first ≠ [] ∧ ¬text "." <+: first := by
  cases s with
  | nil =>
    rw [List.splitOn_nil] at h
    cases h
    exact iff_of_false (by decide) fun hfirst => hfirst.1 rfl
  | cons c s =>
    rw [List.splitOn_cons_eq_if_modifyHead] at h
    have hbad : isBadSegment (c :: s) = false ↔ ¬c = 0x2e ∧ ¬c = 0x2f := by
      rw [isBadSegment, decide_eq_false_iff_not, not_or, not_or, List.head?_cons, Option.some.injEq,
        Option.some.injEq]
      exact and_iff_right (List.cons_ne_nil _ _)
    rw [hbad]
    by_cases hslash : c = 0x2f
    · rw [if_pos (beq_iff_eq.mpr hslash)] at h
      cases h
      exact iff_of_false (fun hc => hc.2 hslash) fun hfirst => hfirst.1 rfl
    · rw [if_neg (fun hc => hslash (beq_iff_eq.mp hc))] at h
      obtain ⟨head, tail, hs⟩ := List.exists_cons_of_ne_nil (List.splitOn_ne_nil 0x2f s)
      rw [hs, List.modifyHead_cons] at h
      cases h
      rw [show text "." = [0x2e] from rfl, List.singleton_prefix_cons_iff, eq_comm,
        and_iff_left hslash, and_iff_right (List.cons_ne_nil _ _)]

/-- **What the pass says** of the rest of a name, if `seg` is what it has passed of a component. -/
theorem isValidFrom_iff (seg : Bytes) (h : s.splitOn 0x2f = first :: others) :
    isValidFrom seg s = true ↔ (∀ c t, c :: t <:+ s → IsRefChar c t)
      ∧ ¬text ".lock" <:+ seg ++ first ∧ ∀ seg ∈ others, IsRefComponent seg := by
  induction s generalizing seg first others with
  | nil =>
    rw [List.splitOn_nil] at h
    cases h
    rw [isValidFrom, decide_eq_true_eq, List.append_nil]
    refine ⟨fun hlock => ⟨fun c t ht => ?_, hlock, fun _ hmem => ?_⟩, fun hok => hok.2.1⟩
    · exact absurd (List.suffix_nil.mp ht) (List.cons_ne_nil _ _)
    · exact absurd hmem List.not_mem_nil
  | cons c s ih =>
    have hsuffix : (∀ c' t, c' :: t <:+ c :: s → IsRefChar c' t)
        ↔ IsRefChar c s ∧ ∀ c' t, c' :: t <:+ s → IsRefChar c' t := by
      refine ⟨fun hall => ⟨hall c s (List.suffix_refl _), fun c' t ht =>
        hall c' t (List.suffix_cons_iff.mpr (Or.inr ht))⟩, fun hall c' t ht => ?_⟩
      rcases List.suffix_cons_iff.mp ht with heq | ht
      · cases heq
        exact hall.1
      · exact hall.2 c' t ht
    rw [isValidFrom_cons, hsuffix, and_assoc]
    refine and_congr_right fun _ => ?_
    obtain ⟨head, tail, hs⟩ := List.exists_cons_of_ne_nil (List.splitOn_ne_nil 0x2f s)
    rw [List.splitOn_cons_eq_if_modifyHead, hs] at h
    by_cases hslash : c = 0x2f
    · -- a component ends here, and the next one is looked at
      rw [if_pos (beq_iff_eq.mpr hslash)] at h
      cases h
      rw [if_pos hslash, isBadSegment_eq_false_iff hs, ih [] hs, List.append_nil, List.nil_append,
        List.forall_mem_cons]
      constructor
      · rintro ⟨⟨hne, hdot⟩, hseg, hchars, hlock, htail⟩
        exact ⟨hchars, hseg, ⟨hne, hdot, hlock⟩, htail⟩
      · rintro ⟨hchars, hseg, ⟨hne, hdot, hlock⟩, htail⟩
        exact ⟨⟨hne, hdot⟩, hseg, hchars, hlock, htail⟩
    · rw [if_neg fun hc => hslash (beq_iff_eq.mp hc), List.modifyHead_cons] at h
      cases h
      rw [if_neg hslash, ih (seg ++ [c]) hs, List.append_assoc, List.singleton_append]

/-! ## The whole name -/

/-- What is said of every character is said of the whole name. -/
theorem forall_isRefChar_iff (name : Bytes) : (∀ c t, c :: t <:+ name → IsRefChar c t)
    ↔ ¬text ".." <:+: name ∧ ¬text "@\x7b" <:+: name ∧ (∀ c ∈ name, ¬(c < 0x20 ∨ c = 0x7f))
      ∧ (∀ c ∈ name, c ∉ text " ~^:?*[\\") ∧ ¬text "." <:+ name := by
  constructor
  · intro h
    have hsub : ∀ {seq : Bytes}, seq ≠ [] → (∀ c t, c :: t <:+ name → ¬seq <+: c :: t) →
        ¬seq <:+: name := by
      intro seq hne hseq hin
      obtain ⟨t, hpre, hsuf⟩ := List.infix_iff_prefix_suffix.mp hin
      cases t with
      | nil => exact hne (List.prefix_nil.mp hpre)
      | cons c t => exact hseq c t hsuf hpre
    have hmem : ∀ {c : UInt8}, c ∈ name → ∃ t, c :: t <:+ name := by
      intro c hc
      obtain ⟨before, t, hname⟩ := List.append_of_mem hc
      exact ⟨t, before, hname.symm⟩
    refine ⟨hsub (by decide) fun c t ht => (h c t ht).not_dots,
      hsub (by decide) fun c t ht => (h c t ht).not_at_brace, fun c hc => ?_, fun c hc => ?_,
      fun hlast => (h 0x2e [] hlast).not_dot_last ⟨rfl, rfl⟩⟩
    · obtain ⟨t, ht⟩ := hmem hc
      exact (h c t ht).not_cntrl
    · obtain ⟨t, ht⟩ := hmem hc
      exact (h c t ht).not_forbidden
  · rintro ⟨hdots, hbrace, hcntrl, hforbidden, hlast⟩ c t ht
    have hc : c ∈ name := ht.subset List.mem_cons_self
    refine ⟨fun hpre => hdots (hpre.isInfix.trans ht.isInfix),
      fun hpre => hbrace (hpre.isInfix.trans ht.isInfix), hcntrl c hc, hforbidden c hc, ?_⟩
    rintro ⟨rfl, rfl⟩
    exact hlast ht

/-- **The names that are accepted** are those `git check-ref-format` accepts, for names of any
length. The code has one pass over the name; what it says of the rest of a name and of the component
it is in is said by induction (`isValidFrom_iff`), and then put together into rules about the whole
name and its components. -/
theorem isValidRefName_iff (name : Bytes) : isValidRefName name = true ↔ CheckRefFormat name := by
  obtain ⟨first, others, hs⟩ := List.exists_cons_of_ne_nil (List.splitOn_ne_nil 0x2f name)
  rw [isValidRefName, decide_eq_true_eq, Bool.not_eq_true, isBadSegment_eq_false_iff hs,
    isValidFrom_iff [] hs, forall_isRefChar_iff, List.nil_append]
  constructor
  · rintro ⟨hat, ⟨hne, hdot⟩, ⟨hdots, hbrace, hcntrl, hforbidden, hlast⟩, hlock, hothers⟩
    refine ⟨?_, hdots, hbrace, hcntrl, hforbidden, hlast, hat⟩
    rw [hs, List.forall_mem_cons]
    exact ⟨⟨hne, hdot, hlock⟩, hothers⟩
  · rintro ⟨hcomponents, hdots, hbrace, hcntrl, hforbidden, hlast, hat⟩
    rw [hs, List.forall_mem_cons] at hcomponents
    obtain ⟨⟨hne, hdot, hlock⟩, hothers⟩ := hcomponents
    exact ⟨hat, ⟨hne, hdot⟩, ⟨hdots, hbrace, hcntrl, hforbidden, hlast⟩, hlock, hothers⟩

example : isValidRefName (text "refs/heads/@/a.lock.") = false
    ∧ isValidRefName (text "a./b.lock@") := by
  decide

end Got

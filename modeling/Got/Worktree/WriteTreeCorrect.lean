import Got.Worktree.Levels

/-!
# `write_tree` applies the files that fit

The two loops of `write_tree` are followed entry by entry. The first one has
made the entries for the added files it has passed, and reported what they
brought with them (`AddState`). The second one has carried over the entries of
the base tree it has passed (`BaseState`). At the end of both there is a
`Level`, whose content is known.

So `write_tree` reports the files that fit and applies them, and a file that
does not fit is left out without an error (`writeTree_spec`). It applies all
files exactly if all of them fit (`writeRootTree_applies_iff`).
-/

namespace Got

/-- **What is right for a directory**: the tree has the content, and what was
reported are the files that fit. -/
def Correct (cts : List Commitable) (w : WriteTree) : Prop :=
  ∀ b bt before id n after, (∀ es ∈ bt, NameOrder es) →
    (∀ ct ∈ cts, ∀ m rest, ct.names = b ++ m :: rest → ct ∉ before) →
    w bt (absPath b) before = .ok (id, n, after) →
    ∃ es, gotObjectOpenAsTree id = .ok es ∧ Content cts b bt es ∧ (es = [] ↔ n = 0)
      ∧ ∀ ct, ct ∈ after ↔ ct ∈ before
        ∨ (ct ∈ cts ∧ ∃ m rest, ct.names = b ++ m :: rest ∧ Fits bt (m :: rest) ct)

variable {cts : List Commitable} {b : List Name} {bt : Option (List TreeEntry)}

/-! ## Added files -/

/-- The files the first loop reports on its way through the files `done`: those
of the directory itself, and all that share a new directory with one of
them. -/
def Reports (cts : List Commitable) (b : List Name) (bt : Option (List TreeEntry))
    (done : List Commitable) (ct : Commitable) : Prop :=
  ct ∈ cts ∧ ct.change = .add ∧ ((∃ n, ct.names = b ++ [n] ∧ ct ∈ done)
    ∨ ∃ n m rest, ct.names = b ++ n :: m :: rest ∧ entryOf bt [n] = none
      ∧ ∃ ct' ∈ done, ct'.change = .add ∧ ∃ m' rest', ct'.names = b ++ n :: m' :: rest')

/-- **The state of the first loop** behind the files `done`. -/
structure AddState (cts : List Commitable) (b : List Name) (bt : Option (List TreeEntry))
    (before done : List Commitable) (paths : List TreeEntry) (reported : List Commitable) :
    Prop where
  order : NameOrder paths
  origin : ∀ te ∈ paths, New cts b bt te
  addedFile : ∀ ct ∈ done, ct.change = .add → ∀ n, ct.names = b ++ [n] →
    ∃ te ∈ paths, te.name = n ∧ te.mode = getCtFileMode ct ∧ ct.newBlob = some te.id
  addedDir : ∀ ct ∈ done, ct.change = .add → ∀ n m rest, ct.names = b ++ n :: m :: rest →
    entryOf bt [n] = none → ∃ te ∈ paths, te.name = n ∧ S_ISDIR te.mode
  reported : ∀ ct, ct ∈ reported ↔ ct ∈ before ∨ Reports cts b bt done ct

namespace AddState

variable {before done : List Commitable} {paths paths' : List TreeEntry}
  {reported reported' : List Commitable} {ct : Commitable}

/-- A file is passed over: there is nothing to add, or it was reported. -/
theorem skip (h : AddState cts b bt before done paths reported)
    (hbefore : ∀ ct ∈ cts, ∀ m rest, ct.names = b ++ m :: rest → ct ∉ before) (hct : ct ∈ cts)
    (hskip : ct.change = .add → ∀ n rest, ct.names = b ++ n :: rest →
      ct ∈ reported ∨ (rest ≠ [] ∧ entryOf bt [n] ≠ none)) :
    AddState cts b bt before (done ++ [ct]) paths reported := by
  -- if it was reported, so it was together with a file before it
  have hpast : ct.change = .add → ∀ n rest, ct.names = b ++ n :: rest →
      Reports cts b bt done ct ∨ (rest ≠ [] ∧ entryOf bt [n] ≠ none) := by
    intro ha n rest hn
    refine (hskip ha n rest hn).imp_left (fun hrep => ?_)
    exact ((h.reported ct).mp hrep).resolve_left (hbefore ct hct n rest hn)
  have hmem : ∀ ct', ct' ∈ done ++ [ct] → ct' ∈ done ∨ ct' = ct := fun ct' h =>
    (List.mem_append.mp h).imp_right List.mem_singleton.mp
  refine ⟨h.order, h.origin, fun ct' hct' ha n hn => ?_, fun ct' hct' ha n m rest hn hnone => ?_,
    fun ct' => ?_⟩
  · rcases hmem ct' hct' with hct' | rfl
    · exact h.addedFile ct' hct' ha n hn
    · rcases hpast ha n [] hn with ⟨-, -, hfile | ⟨n', m, rest, hn', -⟩⟩ | ⟨hne, -⟩
      · exact h.addedFile ct' hfile.choose_spec.2 ha n hn
      · exact absurd (List.append_cancel_left (hn.symm.trans hn')) (by simp)
      · exact absurd rfl hne
  · rcases hmem ct' hct' with hct' | rfl
    · exact h.addedDir ct' hct' ha n m rest hn hnone
    · rcases hpast ha n (m :: rest) hn with
        ⟨-, -, ⟨n', hn', -⟩ | ⟨n', m', rest', hn', -, ct'', hct'', ha'', m'', rest'', hn''⟩⟩
        | ⟨-, hne⟩
      · exact absurd (List.append_cancel_left (hn.symm.trans hn')) (by simp)
      · obtain ⟨rfl, -⟩ := List.cons.inj (List.append_cancel_left (hn.symm.trans hn'))
        exact h.addedDir ct'' hct'' ha'' n m'' rest'' hn'' hnone
      · exact absurd hnone hne
  · rw [h.reported]
    refine or_congr_right ⟨fun ⟨hc, ha, hr⟩ => ⟨hc, ha, ?_⟩, fun ⟨hc, ha, hr⟩ => ?_⟩
    · rcases hr with ⟨n, hn, hd⟩ | ⟨n, m, rest, hn, hnone, ct'', hd, hrest⟩
      · exact Or.inl ⟨n, hn, List.mem_append_left _ hd⟩
      · exact Or.inr ⟨n, m, rest, hn, hnone, ct'', List.mem_append_left _ hd, hrest⟩
    · rcases hr with ⟨n, hn, hd⟩ | ⟨n, m, rest, hn, hnone, ct'', hd, ha'', m'', rest'', hn''⟩
      · rcases hmem ct' hd with hd | rfl
        · exact ⟨hc, ha, Or.inl ⟨n, hn, hd⟩⟩
        · exact (hpast ha n [] hn).resolve_right (fun h => h.1 rfl)
      · rcases hmem ct'' hd with hd | rfl
        · exact ⟨hc, ha, Or.inr ⟨n, m, rest, hn, hnone, ct'', hd, ha'', m'', rest'', hn''⟩⟩
        · have hp := (hpast ha'' n (m'' :: rest'') hn'').resolve_right (fun h => h.2 hnone)
          rcases hp with ⟨-, -, ⟨n', hn', -⟩ | ⟨n', m', rest', hn', -, hother⟩⟩
          · exact absurd (List.append_cancel_left (hn''.symm.trans hn')) (by simp)
          · obtain ⟨rfl, -⟩ := List.cons.inj (List.append_cancel_left (hn''.symm.trans hn'))
            exact ⟨hc, ha, Or.inr ⟨n, m, rest, hn, hnone, hother⟩⟩

/-- An entry is made: for the file itself, or for the directory it is in. -/
theorem insert (h : AddState cts b bt before done paths reported) {te : TreeEntry}
    (hte : New cts b bt te) (hct : ct ∈ cts) (ha : ct.change = .add)
    (horder : NameOrder paths') (hpaths : ∀ te', te' ∈ paths' ↔ te' = te ∨ te' ∈ paths)
    (hcase : (∃ n, ct.names = b ++ [n] ∧ te.name = n ∧ te.mode = getCtFileMode ct
          ∧ ct.newBlob = some te.id ∧ ∀ ct', ct' ∈ reported' ↔ ct' ∈ reported ∨ ct' = ct)
      ∨ ∃ n m rest, ct.names = b ++ n :: m :: rest ∧ te.name = n ∧ S_ISDIR te.mode
          ∧ entryOf bt [n] = none ∧ ∀ ct', ct' ∈ reported' ↔ ct' ∈ reported
            ∨ (ct' ∈ cts ∧ ct'.change = .add ∧ ∃ m' rest', ct'.names = b ++ n :: m' :: rest')) :
    AddState cts b bt before (done ++ [ct]) paths' reported' := by
  have hmem : ∀ ct', ct' ∈ done ++ [ct] → ct' ∈ done ∨ ct' = ct := fun ct' h =>
    (List.mem_append.mp h).imp_right List.mem_singleton.mp
  refine ⟨horder, fun te' hte' => ?_, fun ct' hct' ha' n' hn' => ?_,
    fun ct' hct' ha' n' m' rest' hn' hnone => ?_, fun ct' => ?_⟩
  · rcases (hpaths te').mp hte' with rfl | hte'
    · exact hte
    · exact h.origin te' hte'
  · rcases hmem ct' hct' with hct' | rfl
    · obtain ⟨te', hte', hrest⟩ := h.addedFile ct' hct' ha' n' hn'
      exact ⟨te', (hpaths te').mpr (Or.inr hte'), hrest⟩
    · rcases hcase with ⟨n, hn, hname, hm, hb, -⟩ | ⟨n, m, rest, hn, -⟩
      · obtain ⟨rfl, -⟩ := List.cons.inj (List.append_cancel_left (hn.symm.trans hn'))
        exact ⟨te, (hpaths te).mpr (Or.inl rfl), hname, hm, hb⟩
      · exact absurd (List.append_cancel_left (hn.symm.trans hn')) (by simp)
  · rcases hmem ct' hct' with hct' | rfl
    · obtain ⟨te', hte', hrest⟩ := h.addedDir ct' hct' ha' n' m' rest' hn' hnone
      exact ⟨te', (hpaths te').mpr (Or.inr hte'), hrest⟩
    · rcases hcase with ⟨n, hn, -⟩ | ⟨n, m, rest, hn, hname, hdir, -⟩
      · exact absurd (List.append_cancel_left (hn.symm.trans hn')) (by simp)
      · obtain ⟨rfl, -⟩ := List.cons.inj (List.append_cancel_left (hn.symm.trans hn'))
        exact ⟨te, (hpaths te).mpr (Or.inl rfl), hname, hdir⟩
  · have hmono : Reports cts b bt done ct' → Reports cts b bt (done ++ [ct]) ct' := by
      rintro ⟨hc, ha', hr⟩
      refine ⟨hc, ha', hr.imp (fun ⟨n', hn', hd⟩ => ⟨n', hn', List.mem_append_left _ hd⟩) ?_⟩
      rintro ⟨n', m', rest', hn', hnone, ct'', hd, hrest⟩
      exact ⟨n', m', rest', hn', hnone, ct'', List.mem_append_left _ hd, hrest⟩
    rcases hcase with ⟨n, hn, -, -, -, hrep⟩ | ⟨n, m, rest, hn, -, -, hnone, hrep⟩
    · rw [hrep, h.reported, or_assoc]
      refine or_congr_right ⟨?_, fun ⟨hc, ha', hr⟩ => ?_⟩
      · rintro (hr | rfl)
        · exact hmono hr
        · exact ⟨hct, ha, Or.inl ⟨n, hn, List.mem_append_right _ List.mem_cons_self⟩⟩
      · rcases hr with ⟨n', hn', hd⟩ | ⟨n', m', rest', hn', hnone, ct'', hd, ha'', m'', rest'',
          hn''⟩
        · exact (hmem ct' hd).imp_left (fun hd => ⟨hc, ha', Or.inl ⟨n', hn', hd⟩⟩)
        · rcases hmem ct'' hd with hd | rfl
          · exact Or.inl ⟨hc, ha', Or.inr
              ⟨n', m', rest', hn', hnone, ct'', hd, ha'', m'', rest'', hn''⟩⟩
          · exact absurd (List.append_cancel_left (hn.symm.trans hn'')) (by simp)
    · rw [hrep, h.reported, or_assoc]
      refine or_congr_right ⟨?_, fun ⟨hc, ha', hr⟩ => ?_⟩
      · rintro (hr | ⟨hc, ha', m', rest', hn'⟩)
        · exact hmono hr
        · exact ⟨hc, ha', Or.inr ⟨n, m', rest', hn', hnone, ct,
            List.mem_append_right _ List.mem_cons_self, ha, m, rest, hn⟩⟩
      · rcases hr with ⟨n', hn', hd⟩ | ⟨n', m', rest', hn', hnone', ct'', hd, ha'', m'', rest'',
          hn''⟩
        · rcases hmem ct' hd with hd | rfl
          · exact Or.inl ⟨hc, ha', Or.inl ⟨n', hn', hd⟩⟩
          · exact absurd (List.append_cancel_left (hn.symm.trans hn')) (by simp)
        · rcases hmem ct'' hd with hd | rfl
          · exact Or.inl ⟨hc, ha', Or.inr
              ⟨n', m', rest', hn', hnone', ct'', hd, ha'', m'', rest'', hn''⟩⟩
          · obtain ⟨rfl, -⟩ := List.cons.inj (List.append_cancel_left (hn.symm.trans hn''))
            exact Or.inr ⟨hc, ha', m', rest', hn'⟩

end AddState

/-- The subtree of an added blob is a directory of its name, with what was written for it. -/
theorem makeSubtreeForAddedBlob_eq_ok {w : WriteTree} {n : Name} {te : TreeEntry}
    {reported reported' : List Commitable}
    (h : makeSubtreeForAddedBlob w n.val (absPath b) reported = .ok (te, reported')) :
    te.mode = S_IFDIR ∧ te.name = n
      ∧ ∃ k, w none (absPath (b ++ [n])) reported = .ok (te.id, k, reported') := by
  obtain ⟨name, hname, h⟩ := bind_eq_ok_iff.mp h
  obtain ⟨⟨id, k, rep⟩, hw, h⟩ := bind_eq_ok_iff.mp h
  have h := Except.ok.inj (show Except.ok _ = _ from h)
  cases h
  rw [joinPath_absPath] at hw
  exact ⟨rfl, Subtype.ext (copyName_eq_ok hname), k, hw⟩

/-- An added file fits anywhere where there was nothing. -/
theorem fits_none_iff {ct : Commitable} {path : List Name} :
    Fits none path ct ↔ ct.change = .add := by
  unfold Fits
  by_cases ha : ct.change = .add
  · rw [if_pos ha]
    exact ⟨fun _ => ha, fun _ _ _ _ _ => rfl⟩
  · rw [if_neg ha]
    exact ⟨fun ⟨_, _, hf, _⟩ => (nomatch hf), fun h => absurd h ha⟩

/-- **The first loop** makes the entries for all added files. -/
theorem addedEntries_spec {w : WriteTree} (hw : Correct cts w) {before done rest : List Commitable}
    (hbefore : ∀ ct ∈ cts, ∀ m rest, ct.names = b ++ m :: rest → ct ∉ before)
    {paths paths' : List TreeEntry} {reported reported' : List Commitable}
    (hcts : ∀ ct ∈ rest, ct ∈ cts) (hs : AddState cts b bt before done paths reported)
    (h : addedEntries w bt (absPath b) rest paths reported = .ok (paths', reported')) :
    AddState cts b bt before (done ++ rest) paths' reported' := by
  induction rest generalizing done paths reported with
  | nil =>
    have h := Except.ok.inj (show Except.ok _ = _ from h)
    cases h
    rwa [List.append_nil]
  | cons ct rest ih =>
    have hct : ct ∈ cts := hcts ct List.mem_cons_self
    have hcts' : ∀ ct ∈ rest, ct ∈ cts := fun ct' h => hcts ct' (List.mem_cons_of_mem _ h)
    rw [List.append_cons]
    rw [addedEntries] at h
    split at h
    · next hskip =>
      refine ih hcts' (hs.skip hbefore hct (fun ha n rest hn => Or.inl ?_)) h
      exact hskip.resolve_left (not_not.mpr (ct.isAdd_iff.mpr ha))
    next hadd =>
    have ha : ct.change = .add := ct.isAdd_iff.mp (not_not.mp (fun hn => hadd (Or.inl hn)))
    rw [ct.inRepoPath_eq] at h
    split at h
    · next hchild =>
      refine ih hcts' (hs.skip hbefore hct (fun _ n rest hn => absurd ?_ hchild)) h
      exact (gotPathIsChild_absPath ct.names_ne).mpr ⟨n, rest, hn⟩
    next hchild =>
    obtain ⟨n, names, hn⟩ := (gotPathIsChild_absPath ct.names_ne).mp (not_not.mp hchild)
    rw [hn, gotPathSkipCommonAncestor_absPath, ok_bind] at h
    split at h
    · -- the file is in this directory
      next hlast =>
      obtain rfl := not_not.mp (mt (mem_relPath n names).mpr hlast)
      obtain ⟨te, hte, h⟩ := bind_eq_ok_iff.mp h
      obtain ⟨paths₁, hins, h⟩ := bind_eq_ok_iff.mp h
      obtain ⟨horder, hpaths⟩ := insertTreeEntry_eq_ok hs.order hins
      obtain ⟨hname, hm, hb⟩ := allocAddedBlobTreeEntry_eq_ok hn (ct.isAdd_iff.mpr ha) hte
      have hnew : New cts b bt te := by
        obtain ⟨mode, name, id⟩ := te
        obtain rfl : mode = getCtFileMode ct := hm
        obtain rfl : name = n := hname
        exact .file hct ha hn hb
      refine ih hcts' (hs.insert hnew hct ha horder hpaths (Or.inl ⟨n, hn, hname, hm, hb, ?_⟩)) h
      exact fun ct' => List.mem_append.trans (or_congr_right List.mem_singleton)
    next hmore =>
    obtain ⟨m, rest', rfl⟩ :=
      List.exists_cons_of_ne_nil ((mem_relPath n names).mp (not_not.mp hmore))
    dsimp only at h
    rw [takeWhile_relPath] at h
    split at h
    · next hsome =>
      refine ih hcts' (hs.skip hbefore hct (fun _ n' rest'' hn' => Or.inr ?_)) h
      obtain ⟨rfl, rfl⟩ := List.cons.inj (List.append_cancel_left (hn.symm.trans hn'))
      refine ⟨List.cons_ne_nil m rest', fun hnone => ?_⟩
      rw [show bt.bind (fun es => findEntryByName es n.val) = none from hnone] at hsome
      exact Bool.false_ne_true hsome
    · -- a directory is made for it, and for all others that belong there
      next hnone =>
      have hnone : entryOf bt [n] = none := Option.not_isSome_iff_eq_none.mp hnone
      obtain ⟨⟨te, reported₁⟩, hmake, h⟩ := bind_eq_ok_iff.mp h
      obtain ⟨paths₁, hins, h⟩ := bind_eq_ok_iff.mp h
      obtain ⟨hmode, hname, k, hrun⟩ := makeSubtreeForAddedBlob_eq_ok hmake
      obtain ⟨horder, hpaths⟩ := insertTreeEntry_eq_ok hs.order hins
      have hfresh : ∀ ct' ∈ cts, ∀ m' rest'', ct'.names = (b ++ [n]) ++ m' :: rest'' →
          ct' ∉ reported := by
        intro ct' hct' m' rest'' hn' hrep
        rw [List.append_assoc] at hn'
        rcases (hs.reported ct').mp hrep with hbef | ⟨-, -, ⟨n', hn'', -⟩ | ⟨n', m'', r, hn'', -,
          ct'', hd, ha'', m₃, r₃, hn₃⟩⟩
        · exact hbefore ct' hct' n (m' :: rest'') hn' hbef
        · exact absurd (List.append_cancel_left (hn'.symm.trans hn'')) (by simp)
        · obtain ⟨rfl, -⟩ := List.cons.inj (List.append_cancel_left (hn'.symm.trans hn''))
          refine hadd (Or.inr ((hs.reported ct).mpr (Or.inr ⟨hct, ha, Or.inr ?_⟩)))
          exact ⟨n, m, rest', hn, hnone, ct'', hd, ha'', m₃, r₃, hn₃⟩
      obtain ⟨es, ho, hcontent, -, hrep⟩ :=
        hw (b ++ [n]) none reported te.id k reported₁ (fun _ h => nomatch h) hfresh hrun
      have hne : es ≠ [] := by
        rintro rfl
        have happ := (hcontent.applied ct hct m rest' (by rw [hn, List.append_assoc]; rfl)
          (fits_none_iff.mpr ha)).2 (fileAt_of_nil _)
        rw [ha] at happ
        exact nomatch happ
      have hnew : New cts b bt te := by
        obtain ⟨mode, name, id⟩ := te
        obtain rfl : mode = S_IFDIR := hmode
        obtain rfl : name = n := hname
        exact .dir hnone ho hne hcontent
      refine ih hcts' (hs.insert hnew hct ha horder hpaths
        (Or.inr ⟨n, m, rest', hn, hname, by rw [hmode]; decide, hnone, fun ct' => ?_⟩)) h
      rw [hrep]
      refine or_congr_right (and_congr_right' ?_)
      constructor
      · rintro ⟨m', rest'', hn', hf⟩
        rw [List.append_assoc] at hn'
        exact ⟨fits_none_iff.mp hf, m', rest'', hn'⟩
      · rintro ⟨ha', m', rest'', hn'⟩
        exact ⟨m', rest'', by rw [hn', List.append_assoc]; rfl, fits_none_iff.mpr ha'⟩

/-! ## Entries of the base tree -/

/-- The files an entry of the base tree takes up. -/
def Taken (b : List Name) (te : TreeEntry) (ct : Commitable) : Prop :=
  (S_ISDIR te.mode ∧ ∃ m rest, ct.names = b ++ te.name :: m :: rest
      ∧ Fits te.subtree (m :: rest) ct)
    ∨ (¬S_ISDIR te.mode ∧ ¬te.isSubmodule ∧ Changes b te ct)

theorem Taken.names_eq {te : TreeEntry} {ct : Commitable} (h : Taken b te ct) :
    ∃ rest, ct.names = b ++ te.name :: rest := by
  rcases h with ⟨-, m, rest, hn, -⟩ | ⟨-, -, hc⟩
  · exact ⟨m :: rest, hn⟩
  · exact ⟨[], hc.2.1⟩

/-- **The state of the second loop** behind the entries `done`. -/
structure BaseState (cts : List Commitable) (b : List Name) (bt : Option (List TreeEntry))
    (added : List TreeEntry) (before : List Commitable) (fate : TreeEntry → Option TreeEntry)
    (done paths : List TreeEntry) (reported : List Commitable) : Prop where
  order : NameOrder paths
  origin : ∀ te ∈ paths, New cts b bt te ∨ ∃ te₀ ∈ done, fate te₀ = some te
  kept : ∀ te ∈ added, te ∈ paths
  carried : ∀ te₀ ∈ done, Carried cts b te₀ (fate te₀) ∧ ∀ te, fate te₀ = some te → te ∈ paths
  reported : ∀ ct, ct ∈ reported ↔ ct ∈ before ∨ (ct ∈ cts ∧ ∃ te₀ ∈ done, Taken b te₀ ct)

namespace BaseState

variable {added done rest paths paths' : List TreeEntry}
    {before reported reported' : List Commitable}
  {fate : TreeEntry → Option TreeEntry} {te : TreeEntry}

/-- One more entry is carried over. -/
theorem step (h : BaseState cts b bt added before fate done paths reported) (hte : te ∉ done)
    {r : Option TreeEntry} (hr : Carried cts b te r) (horder : NameOrder paths')
    (hpaths : ∀ te', te' ∈ paths' ↔ r = some te' ∨ te' ∈ paths)
    (hrep : ∀ ct, ct ∈ reported' ↔ ct ∈ reported ∨ (ct ∈ cts ∧ Taken b te ct)) :
    ∃ fate', BaseState cts b bt added before fate' (done ++ [te]) paths' reported' := by
  have hfate : ∀ te₀ ∈ done, (if te₀ = te then r else fate te₀) = fate te₀ := by
    intro te₀ h₀
    refine if_neg ?_
    rintro rfl
    exact hte h₀
  refine ⟨fun te₀ => if te₀ = te then r else fate te₀, horder, fun te' hte' => ?_,
    fun te' hte' => (hpaths te').mpr (Or.inr (h.kept te' hte')), fun te₀ hte₀ => ?_, fun ct => ?_⟩
  · rcases (hpaths te').mp hte' with hr' | hte'
    · exact Or.inr ⟨te, List.mem_append_right _ List.mem_cons_self, (if_pos rfl).trans hr'⟩
    · refine (h.origin te' hte').imp_right (fun ⟨te₀, hte₀, hf⟩ => ?_)
      exact ⟨te₀, List.mem_append_left _ hte₀, (hfate te₀ hte₀).trans hf⟩
  · rcases List.mem_append.mp hte₀ with hte₀ | hte₀
    · rw [hfate te₀ hte₀]
      obtain ⟨hc, hin⟩ := h.carried te₀ hte₀
      exact ⟨hc, fun te' hf => (hpaths te').mpr (Or.inr (hin te' hf))⟩
    · rw [List.mem_singleton.mp hte₀, if_pos rfl]
      exact ⟨hr, fun te' hf => (hpaths te').mpr (Or.inl hf)⟩
  · rw [hrep, h.reported, or_assoc]
    refine or_congr_right ⟨?_, fun ⟨hc, te₀, hte₀, ht⟩ => ?_⟩
    · rintro (⟨hc, te₀, hte₀, ht⟩ | ⟨hc, ht⟩)
      · exact ⟨hc, te₀, List.mem_append_left _ hte₀, ht⟩
      · exact ⟨hc, te, List.mem_append_right _ List.mem_cons_self, ht⟩
    · rcases List.mem_append.mp hte₀ with hte₀ | hte₀
      · exact Or.inl ⟨hc, te₀, hte₀, ht⟩
      · rw [List.mem_singleton.mp hte₀] at ht
        exact Or.inr ⟨hc, ht⟩

end BaseState

/-- A subtree is written from what its entry is now. -/
theorem writeSubtree_eq_ok {w : WriteTree} {te : TreeEntry} {reported : List Commitable}
    {r : NewTree} (h : writeSubtree w te (absPath b) reported = .ok r) :
    ∃ es, gotObjectOpenAsTree te.id = .ok es
      ∧ w (some es) (absPath (b ++ [te.name])) reported = .ok r := by
  obtain ⟨es, ho, h⟩ := bind_eq_ok_iff.mp h
  rw [joinPath_absPath] at h
  exact ⟨es, ho, h⟩

/-- Where nothing is taken up, nothing is reported. -/
theorem reported_of_not_taken {reported : List Commitable} {te : TreeEntry}
    (h : ∀ ct ∈ cts, ¬Taken b te ct) (ct : Commitable) :
    ct ∈ reported ↔ ct ∈ reported ∨ (ct ∈ cts ∧ Taken b te ct) :=
  ⟨Or.inl, fun h' => h'.elim id (fun ⟨hct, ht⟩ => absurd ht (h ct hct))⟩

/-- **The second loop** carries over all entries of the base tree. -/
theorem baseEntries_spec {w : WriteTree} (hw : Correct cts w) (hd : Distinct cts)
    {added done rest paths paths' : List TreeEntry} {before reported reported' : List Commitable}
    {fate : TreeEntry → Option TreeEntry} (horder : NameOrder (done ++ rest))
    (hbefore : ∀ te ∈ rest, ∀ ct ∈ cts, ∀ m names, ct.names = b ++ te.name :: m :: names →
      ct ∉ before)
    (hs : BaseState cts b bt added before fate done paths reported)
    (h : baseEntries w cts (absPath b) rest paths reported = .ok (paths', reported')) :
    ∃ fate', BaseState cts b bt added before fate' (done ++ rest) paths' reported' := by
  induction rest generalizing done paths reported fate with
  | nil =>
    have h := Except.ok.inj (show Except.ok _ = _ from h)
    cases h
    exact ⟨fate, by rwa [List.append_nil]⟩
  | cons te rest ih =>
    have hnames : ∀ te₀ ∈ done, te₀.name ≠ te.name := by
      intro te₀ hte₀ heq
      have hlt := (List.pairwise_append.mp horder).2.2 te₀ hte₀ te List.mem_cons_self
      rw [heq] at hlt
      exact lt_irrefl _ hlt
    have hte : te ∉ done := fun hmem => hnames te hmem rfl
    have hbefore' : ∀ te ∈ rest, ∀ ct ∈ cts, ∀ m names, ct.names = b ++ te.name :: m :: names →
        ct ∉ before := fun te' hte' => hbefore te' (List.mem_cons_of_mem _ hte')
    rw [List.append_cons] at horder ⊢
    rw [baseEntries] at h
    -- the ways in which an entry gets into the list, or does not
    have hkeep : ∀ {te' : TreeEntry} {paths₁ reported₁}, Carried cts b te (some te') →
        insertTreeEntry te' paths = .ok paths₁ →
        (∀ ct, ct ∈ reported₁ ↔ ct ∈ reported ∨ (ct ∈ cts ∧ Taken b te ct)) →
        baseEntries w cts (absPath b) rest paths₁ reported₁ = .ok (paths', reported') →
        ∃ fate', BaseState cts b bt added before fate' (done ++ [te] ++ rest) paths' reported' := by
      intro te' paths₁ reported₁ hc hins hrep hrun
      obtain ⟨horder', hpaths⟩ := insertTreeEntry_eq_ok hs.order hins
      obtain ⟨fate', hs'⟩ := hs.step hte hc horder' (fun te'' => by
        rw [hpaths, Option.some.injEq, eq_comm]) hrep
      exact ih horder hbefore' hs' hrun
    have hdrop : ∀ {reported₁}, Carried cts b te none →
        (∀ ct, ct ∈ reported₁ ↔ ct ∈ reported ∨ (ct ∈ cts ∧ Taken b te ct)) →
        baseEntries w cts (absPath b) rest paths reported₁ = .ok (paths', reported') →
        ∃ fate', BaseState cts b bt added before fate' (done ++ [te] ++ rest) paths' reported' := by
      intro reported₁ hc hrep hrun
      obtain ⟨fate', hs'⟩ := hs.step hte hc hs.order (fun te'' =>
        ⟨Or.inr, fun h => h.elim (fun h => nomatch h) id⟩) hrep
      exact ih horder hbefore' hs' hrun
    split at h
    · next hsub =>
      obtain ⟨paths₁, hins, h⟩ := bind_eq_ok_iff.mp h
      refine hkeep (.submodule hsub) hins (reported_of_not_taken (fun ct _ ht => ?_)) h
      rcases ht with ⟨hdir, -⟩ | ⟨-, hs', -⟩
      · exact not_dir_of_isSubmodule hsub hdir
      · exact hs' hsub
    next hsub =>
    split at h
    · next hdir =>
      split at h
      · -- a directory with files to be committed below it
        next hmod =>
        obtain ⟨ct, hct, m, names, hn⟩ := matchModifiedSubtree_iff.mp hmod
        obtain ⟨⟨newId, nsub, reported₁⟩, hwrite, h⟩ := bind_eq_ok_iff.mp h
        obtain ⟨es, ho, hrun⟩ := writeSubtree_eq_ok hwrite
        have hfresh : ∀ ct' ∈ cts, ∀ m' names', ct'.names = (b ++ [te.name]) ++ m' :: names' →
            ct' ∉ reported := by
          intro ct' hct' m' names' hn' hrep
          rw [List.append_assoc] at hn'
          rcases (hs.reported ct').mp hrep with hbef | ⟨-, te₀, hte₀, ht⟩
          · exact hbefore te List.mem_cons_self ct' hct' m' names' hn' hbef
          · obtain ⟨names₀, hn₀⟩ := ht.names_eq
            exact hnames te₀ hte₀
              (List.cons.inj (List.append_cancel_left (hn₀.symm.trans hn'))).1
        obtain ⟨es', ho', hcontent, hempty, hrep⟩ := hw (b ++ [te.name]) (some es) reported newId
          nsub reported₁ (fun es₁ h₁ => by cases h₁; exact open_order ho) hfresh hrun
        have hsubtree : te.subtree = some es := by
          rw [TreeEntry.subtree, if_pos hdir, ho]
          rfl
        have hrep' : ∀ ct', ct' ∈ reported₁ ↔ ct' ∈ reported ∨ (ct' ∈ cts ∧ Taken b te ct') := by
          intro ct'
          rw [hrep]
          refine or_congr_right (and_congr_right' ⟨?_, ?_⟩)
          · rintro ⟨m', names', hn', hf⟩
            rw [List.append_assoc] at hn'
            rw [← hsubtree] at hf
            exact Or.inl ⟨hdir, m', names', hn', hf⟩
          · rintro (⟨-, m', names', hn', hf⟩ | ⟨hdir', -⟩)
            · rw [hsubtree] at hf
              exact ⟨m', names', by rw [hn', List.append_assoc]; rfl, hf⟩
            · exact absurd hdir hdir'
        dsimp only at h
        split at h
        · next hzero =>
          obtain rfl := hempty.mpr hzero
          exact hdrop (.emptied hdir hct hn ho hcontent) hrep' h
        · next hzero =>
          obtain ⟨paths₁, hins, h⟩ := bind_eq_ok_iff.mp h
          exact hkeep (.subtree hdir hct hn ho ho' (mt hempty.mp hzero) hcontent) hins hrep' h
      · next hmod =>
        obtain ⟨paths₁, hins, h⟩ := bind_eq_ok_iff.mp h
        have hno : ∀ ct ∈ cts, ∀ m names, ct.names ≠ b ++ te.name :: m :: names :=
          fun ct hct m names hn => hmod (matchModifiedSubtree_iff.mpr ⟨ct, hct, m, names, hn⟩)
        refine hkeep (.untouched hdir hno) hins (reported_of_not_taken (fun ct hct ht => ?_)) h
        rcases ht with ⟨-, m, names, hn, -⟩ | ⟨hdir', -⟩
        · exact hno ct hct m names hn
        · exact hdir' hdir
    · next hdir =>
      obtain ⟨ct?, hmatch, h⟩ := bind_eq_ok_iff.mp h
      obtain ⟨hsome, hnone⟩ := matchDeletedOrModifiedCt_eq_ok hmatch
      cases ct? with
      | none =>
        obtain ⟨paths₁, hins, h⟩ := bind_eq_ok_iff.mp h
        refine hkeep (.unchanged hdir hsub (hnone rfl)) hins
          (reported_of_not_taken (fun ct hct ht => ?_)) h
        rcases ht with ⟨hdir', -⟩ | ⟨-, -, hc⟩
        · exact hdir hdir'
        · exact hnone rfl ct hct hc
      | some ct =>
        obtain ⟨hct, hc⟩ := hsome ct rfl
        have hrep : ∀ ct', ct' ∈ reported ++ [ct] ↔ ct' ∈ reported
            ∨ (ct' ∈ cts ∧ Taken b te ct') := by
          intro ct'
          rw [List.mem_append, List.mem_singleton]
          refine or_congr_right ⟨?_, ?_⟩
          · rintro rfl
            exact ⟨hct, Or.inr ⟨hdir, hsub, hc⟩⟩
          · rintro ⟨hct', ⟨hdir', -⟩ | ⟨-, -, hc'⟩⟩
            · exact absurd hdir' hdir
            · exact hd ct' hct' ct hct (hc'.2.1.trans hc.2.1.symm)
        have hdm := ct.isDeletedOrModified_iff.mpr hc.1
        dsimp only at h
        split at h
        · next hmod =>
          have hmodify := (ct.isModified_iff hdm).mp hmod
          obtain ⟨newTe, halloc, h⟩ := bind_eq_ok_iff.mp h
          obtain ⟨paths₁, hins, hrun⟩ := bind_eq_ok_iff.mp h
          obtain ⟨hname, hm, hb⟩ := allocModifiedBlobTreeEntry_eq_ok hc.1 halloc
          obtain ⟨mode, name, id⟩ := newTe
          obtain rfl : mode = getCtFileMode ct := hm
          obtain rfl : name = te.name := hname
          exact hkeep (.modified hdir hsub hct hc hmodify hb) hins hrep hrun
        · next hmod =>
          have hdelete : ct.change = .delete := by
            cases hch : ct.change with
            | add => exact absurd hch hc.1
            | modify => exact absurd ((ct.isModified_iff hdm).mpr hch) hmod
            | delete => rfl
          exact hdrop (.deleted hdir hsub hct hc hdelete) hrep h

/-! ## All of it -/

/-- Before the first commitable nothing was added. -/
theorem addState_nil (before : List Commitable) : AddState cts b bt before [] [] before where
  order := List.Pairwise.nil
  origin := fun _ h => absurd h List.not_mem_nil
  addedFile := fun _ h => absurd h List.not_mem_nil
  addedDir := fun _ h => absurd h List.not_mem_nil
  reported := by
    refine fun ct => ⟨Or.inl, fun h => h.resolve_right ?_⟩
    rintro ⟨-, -, ⟨n, -, hd⟩ | ⟨n, m, rest, -, -, ct', hd, -⟩⟩
    · exact List.not_mem_nil hd
    · exact List.not_mem_nil hd

/-- Before the first entry of the base tree there are only the additions. -/
theorem baseState_nil {added : List TreeEntry} (horder : NameOrder added)
    (horigin : ∀ te ∈ added, New cts b bt te) (before : List Commitable) :
    BaseState cts b bt added before (fun _ => none) [] added before where
  order := horder
  origin := fun te hte => Or.inl (horigin te hte)
  kept := fun _ h => h
  carried := fun _ h => absurd h List.not_mem_nil
  reported := fun _ => ⟨Or.inl, fun h => h.resolve_right
    (fun ⟨_, _, hte, _⟩ => List.not_mem_nil hte)⟩

/-- What the first loop reports fits. -/
theorem Reports.fits {ct : Commitable} (h : Reports cts b bt cts ct) :
    ∃ m rest, ct.names = b ++ m :: rest ∧ Fits bt (m :: rest) ct := by
  obtain ⟨-, ha, ⟨n, hn, -⟩ | ⟨n, m, rest, hn, hnone, -⟩⟩ := h
  · exact ⟨n, [], hn, fits_singleton_of_add ha⟩
  · refine ⟨n, m :: rest, hn, fits_cons_iff.mpr ?_⟩
    rw [hnone]
    exact ha

/-- What an entry takes up fits. -/
theorem Taken.fits {ct : Commitable} {te : TreeEntry} (h : Taken b te ct)
    (hte : entryOf bt [te.name] = some te) :
    ∃ m rest, ct.names = b ++ m :: rest ∧ Fits bt (m :: rest) ct := by
  rcases h with ⟨hdir, m, rest, hn, hf⟩ | ⟨hdir, hs, hc⟩
  · refine ⟨te.name, m :: rest, hn, fits_cons_iff.mpr ?_⟩
    rw [hte]
    exact ⟨hdir, hf⟩
  · exact ⟨te.name, [], hc.2.1, Changes.fits hc hte hdir hs⟩

/-- **What fits is reported** by one of the loops. -/
theorem reports_or_taken {ct : Commitable} {n : Name} {path : List Name} (hct : ct ∈ cts)
    (hbt : ∀ es ∈ bt, NameOrder es) (hn : ct.names = b ++ n :: path) (hf : Fits bt (n :: path) ct) :
    Reports cts b bt cts ct ∨ ∃ te ∈ bt.getD [], Taken b te ct := by
  cases path with
  | nil =>
    by_cases ha : ct.change = .add
    · exact Or.inl ⟨hct, ha, Or.inl ⟨n, hn, hct⟩⟩
    · obtain ⟨te, hte, hdir, hs, hb⟩ := (fits_singleton_iff ha).mp hf
      obtain ⟨hmem, rfl⟩ := Level.mem_of_entryOf hbt hte
      exact Or.inr ⟨te, hmem, Or.inr ⟨hdir, hs, ha, hn, hb⟩⟩
  | cons m path =>
    have hf' := fits_cons_iff.mp hf
    cases hte : entryOf bt [n] with
    | none =>
      rw [hte] at hf'
      exact Or.inl ⟨hct, hf', Or.inr ⟨n, m, path, hn, hte, ct, hct, hf', m, path, hn⟩⟩
    | some te =>
      rw [hte] at hf'
      obtain ⟨hmem, rfl⟩ := Level.mem_of_entryOf hbt hte
      exact Or.inr ⟨te, hmem, Or.inl ⟨hf'.1, m, path, hn, hf'.2⟩⟩

/-- **`write_tree` is right for every directory**, however deep it goes. -/
theorem writeTree_spec (hd : Distinct cts) (fuel : ℕ) : Correct cts (writeTree cts fuel) := by
  induction fuel with
  | zero => exact fun _ _ _ _ _ _ _ _ h => nomatch h
  | succ fuel ih =>
    intro b bt before id n after hbt hbefore h
    rw [writeTree] at h
    obtain ⟨⟨added, reported₁⟩, hadd, h⟩ := bind_eq_ok_iff.mp h
    obtain ⟨⟨paths, reported₂⟩, hbase, h⟩ := bind_eq_ok_iff.mp h
    obtain ⟨newId, hcreate, h⟩ := bind_eq_ok_iff.mp h
    have h := Except.ok.inj (show Except.ok _ = _ from h)
    cases h
    have hs := addedEntries_spec ih hbefore (fun ct h => h) (addState_nil before) hadd
    rw [List.nil_append] at hs
    -- the entries of the base tree are carried over, if there is one
    obtain ⟨fate, hs'⟩ : ∃ fate,
        BaseState cts b bt added reported₁ fate (bt.getD []) paths after := by
      have hs₀ := baseState_nil hs.order hs.origin reported₁
      cases bt with
      | none =>
        have hbase := Except.ok.inj (show Except.ok _ = _ from hbase)
        cases hbase
        exact ⟨fun _ => none, hs₀⟩
      | some es =>
        have horder : NameOrder ([] ++ es) := hbt es rfl
        refine baseEntries_spec ih hd horder (fun te hte ct hct m names hn hrep => ?_) hs₀ hbase
        rcases (hs.reported ct).mp hrep with
          hbef | ⟨-, -, ⟨n', hn', -⟩ | ⟨n', m', rest, hn', hnone, -⟩⟩
        · exact hbefore ct hct te.name (m :: names) hn hbef
        · exact absurd (List.append_cancel_left (hn.symm.trans hn')) (by simp)
        · obtain ⟨rfl, -⟩ := List.cons.inj (List.append_cancel_left (hn.symm.trans hn'))
          rw [show entryOf (some es) [te.name] = some te from
            findEntryByName_of_mem (hbt es rfl) hte] at hnone
          exact nomatch hnone
    have hlevel : Level cts b bt fate paths := by
      refine ⟨hs'.order, hs'.origin, fun ct hct ha n hn => ?_,
        fun ct hct ha n m rest hn hnone => ?_,
        hs'.carried⟩
      · obtain ⟨te, hte, hrest⟩ := hs.addedFile ct hct ha n hn
        exact ⟨te, hs'.kept te hte, hrest⟩
      · obtain ⟨te, hte, hrest⟩ := hs.addedDir ct hct ha n m rest hn hnone
        exact ⟨te, hs'.kept te hte, hrest⟩
    obtain ⟨es, ho, hcontent, hempty⟩ := content_of_level hlevel hbt hd hcreate
    refine ⟨es, ho, hcontent, hempty.trans List.length_eq_zero_iff.symm, fun ct => ?_⟩
    rw [hs'.reported, hs.reported, or_assoc]
    refine or_congr_right ⟨?_, ?_⟩
    · rintro (hr | ⟨hct, te, hte, ht⟩)
      · exact ⟨hr.1, hr.fits⟩
      · exact ⟨hct, ht.fits (Level.entryOf_of_mem hbt hte)⟩
    · rintro ⟨hct, m, rest, hn, hf⟩
      exact (reports_or_taken hct hbt hn hf).imp_right (fun ht => ⟨hct, ht⟩)

end Got

import Got.Fetch.LocalRefs

/-!
# References that are gone

`got fetch -d` should delete the references that the server no longer has. It compares local
references with those which were fetched, and these have been selected by then. So a
branch is deleted which the server does have, if it has not been selected.

The name to compare with is that of a branch. Where there is a tag no name is made, and the
one from before is compared once more, or none at all.

A local branch is deleted along with the reference of a remote one. There need not be any: the
branch may only have been fetched, or it was deleted by hand. The loop takes note of this as an
error and goes on, and the next deletion that succeeds forgets the error. So it depends on which
reference is visited last whether the command fails.
-/

namespace Got

open ObjectFile FetchPack

namespace Fetch

variable {f : Filters} {haveRefs : List (Bytes × Sha1)} {a : Advertisement} {remote : RemoteRepo}
  {refs refs' : LocalRefs} {theirRefs theirSymrefs myRefs : List Bytes}
    {localRefname : Option Bytes} {err : Option GotErr}

/-! ## The loop -/

/-- `delete_missing_ref`. There is nothing to be done if there is no such reference. -/
def deleteMissingRef (refname : Bytes) (refs : LocalRefs) : LocalRefs :=
  if refname ∈ refs then refs.erase refname else refs

/-- The loops over what was fetched, which compare it with a name that may be `NULL`. -/
def isTheirs (localRefname : Option Bytes) (theirs : List Bytes) : Except GotErr Bool :=
  match localRefname, theirs with
  | _, [] => .ok false
  | none, _ :: _ => .error .outOfMap
  | some name, theirs => .ok (theirs.any fun path => name = path)

/-- The name with which what was fetched is compared, unless the reference is skipped. -/
def comparedName (remote : RemoteRepo) (refname : Bytes) (localRefname : Option Bytes) :
    Option (Option Bytes) :=
  if ¬ remote.mirrorReferences then
    let ns := remoteNamespace remote.name
    if ns.isPrefixOf refname then
      if refname.drop ns.length = GOT_REF_HEAD then none
      else some (some (headsPrefix ++ refname.drop ns.length))
    else if ¬ tagsPrefix.isPrefixOf refname then none
    else some localRefname
  else some localRefname

/-- **The loop of `delete_missing_refs`** over the local references. The name of a local branch
is kept until it has been deleted, and so is the error that there is none. -/
def deleteMissingLoop (theirRefs theirSymrefs : List Bytes) (remote : RemoteRepo) :
    List Bytes → Option Bytes → Option GotErr → LocalRefs → Option GotErr × LocalRefs
  | [], _, err, refs => (err, refs)
  | refname :: myRefs, localRefname, err, refs =>
    match comparedName remote refname localRefname with
    | none => deleteMissingLoop theirRefs theirSymrefs remote myRefs localRefname err refs
    | some localRefname =>
      match isTheirs localRefname theirRefs, isTheirs localRefname theirSymrefs with
      | .error e, _ => (some e, refs)
      | .ok true, _ => deleteMissingLoop theirRefs theirSymrefs remote myRefs localRefname err refs
      | .ok false, .error e => (some e, refs)
      | .ok false, .ok true =>
        deleteMissingLoop theirRefs theirSymrefs remote myRefs localRefname err refs
      | .ok false, .ok false =>
        let refs := deleteMissingRef refname refs
        match localRefname with
        | none => deleteMissingLoop theirRefs theirSymrefs remote myRefs none none refs
        | some name =>
          if name ∈ refs then
            deleteMissingLoop theirRefs theirSymrefs remote myRefs none none
              (deleteMissingRef name refs)
          else
            -- `got_ref_open` fails, and the loop goes on with its error
            deleteMissingLoop theirRefs theirSymrefs remote myRefs none (some .notRef) refs

/-- **`delete_missing_refs`**, with the names of the local references as they are listed. -/
def deleteMissingRefs (theirRefs theirSymrefs : List Bytes) (remote : RemoteRepo)
    (myRefs : List Bytes) (refs : LocalRefs) : Option GotErr × LocalRefs :=
  deleteMissingLoop theirRefs theirSymrefs remote myRefs none none refs

/-! ## What is promised -/

/-- **What the server has**, also as a symbolic reference. -/
def Advertises (a : Advertisement) (name : Bytes) : Prop :=
  (∃ ref ∈ a.refs, ref.2 = name) ∨ ∃ symref ∈ a.symrefs, symref.1 = name

/-- **A reference that is gone from the server**: that of a remote branch, a local branch which
goes with one, or a tag. -/
inductive IsGone (a : Advertisement) (remote : RemoteRepo) (refs : LocalRefs) : Bytes → Prop
  | remoteBranch {b : Bytes} (hhead : b ≠ GOT_REF_HEAD)
      (hgone : ¬ Advertises a (headsPrefix ++ b)) :
      IsGone a remote refs (remoteNamespace remote.name ++ b)
  | localBranch {b : Bytes} (hhead : b ≠ GOT_REF_HEAD)
      (hremote : remoteNamespace remote.name ++ b ∈ refs)
      (hgone : ¬ Advertises a (headsPrefix ++ b)) : IsGone a remote refs (headsPrefix ++ b)
  | tag {t : Bytes} (hgone : ¬ Advertises a (tagsPrefix ++ t)) : IsGone a remote refs
      (tagsPrefix ++ t)

/-- What is left are the references that are not gone. -/
structure OnlyGone (a : Advertisement) (remote : RemoteRepo) (refs refs' : LocalRefs) : Prop where
  gone : ∀ name, IsGone a remote refs name → name ∉ refs'
  kept : ∀ name, ¬ IsGone a remote refs name → refs'.lookup name = refs.lookup name

/-- **The references that are gone are deleted, and no other ones**, and the command succeeds, in
whatever order the local references are visited. What the server has as symbolic references is what
it says, what is passed on is what the program has found. -/
def DeletesGone (f : Filters) (haveRefs : List (Bytes × Sha1)) (a : Advertisement)
    (remote : RemoteRepo) (refs : LocalRefs) : Prop :=
  ∀ myRefs : List Bytes, myRefs.Perm refs.keys →
    ∃ refs', deleteMissingRefs ((fetchPackRefs f haveRefs a.packets).1.map Prod.snd)
      (a.foundSymrefs.map Prod.fst) remote myRefs refs = (none, refs') ∧
        OnlyGone a remote refs refs'

/-! ## The loop where there are no tags -/

/-- A local reference of a remote branch, which has not been fetched. -/
def IsMissing (theirRefs theirSymrefs : List Bytes) (b : Bytes) : Prop :=
  b ≠ GOT_REF_HEAD ∧ headsPrefix ++ b ∉ theirRefs ∧ headsPrefix ++ b ∉ theirSymrefs

/-- A branch of the remote is compared under its name at the server, unless it is `HEAD`. -/
theorem comparedName_remote (hmirror : remote.mirrorReferences = false) (b : Bytes) :
    comparedName remote (remoteNamespace remote.name ++ b) localRefname =
      if b = GOT_REF_HEAD then none else some (some (headsPrefix ++ b)) := by
  unfold comparedName
  dsimp only
  rw [hmirror, if_pos (by decide), if_pos (isPrefixOf_append _ b), List.drop_left]

/-- What is neither a branch of the remote nor a tag is not compared. -/
theorem comparedName_other (hmirror : remote.mirrorReferences = false) {name : Bytes}
    (hremote : ∀ b, name ≠ remoteNamespace remote.name ++ b) (htag : ∀ t, name ≠ tagsPrefix ++ t) :
    comparedName remote name localRefname = none := by
  unfold comparedName
  dsimp only
  rw [hmirror, if_pos (by decide), if_neg (not_isPrefixOf hremote), if_pos (not_isPrefixOf htag)]

/-- A name is the server's exactly when it is in the list of the server's names. -/
theorem isTheirs_some (name : Bytes) (theirs : List Bytes) :
    isTheirs (some name) theirs = .ok (decide (name ∈ theirs)) := by
  cases theirs with
  | nil => rfl
  | cons path theirs =>
    refine congrArg Except.ok ?_
    rw [Bool.eq_iff_iff, List.any_eq_true, decide_eq_true_eq]
    constructor
    · rintro ⟨path, hmem, heq⟩
      exact of_decide_eq_true heq ▸ hmem
    · exact fun hmem => ⟨name, hmem, decide_eq_true rfl⟩

/-- Deleting a missing reference takes it from the list of references. -/
theorem deleteMissingRef_eq (name : Bytes) (refs : LocalRefs) :
    deleteMissingRef name refs = refs.erase name := by
  unfold deleteMissingRef
  split
  · rfl
  · next h => exact AList.ext (List.kerase_of_notMem_keys h).symm

/-- **What the loop deletes**, where no local reference is a tag: each reference of a remote branch
which has not been fetched, and the local branch that goes with it. -/
def IsDeleted (theirRefs theirSymrefs : List Bytes) (remote : RemoteRepo) (myRefs : List Bytes)
    (name : Bytes) : Prop :=
  ∃ b, IsMissing theirRefs theirSymrefs b ∧ remoteNamespace remote.name ++ b ∈ myRefs ∧
    (name = remoteNamespace remote.name ++ b ∨ name = headsPrefix ++ b)

/-- What is deleted is what one of our references stands for, and the server no longer has. -/
theorem isDeleted_cons {myRef name : Bytes} :
    IsDeleted theirRefs theirSymrefs remote (myRef :: myRefs) name ↔
      (∃ b, IsMissing theirRefs theirSymrefs b ∧ remoteNamespace remote.name ++ b = myRef ∧
        (name = remoteNamespace remote.name ++ b ∨ name = headsPrefix ++ b)) ∨
      IsDeleted theirRefs theirSymrefs remote myRefs name := by
  unfold IsDeleted
  rw [← exists_or]
  refine exists_congr fun b => ?_
  rw [List.mem_cons]
  tauto

/-- **A step of the loop**, where there are no tags: a reference of a remote branch is deleted which
has not been fetched, along with the local branch if there is one, or nothing is done. -/
theorem deleteMissingLoop_cons (hmirror : remote.mirrorReferences = false) {myRef : Bytes}
    (htag : ∀ t, myRef ≠ tagsPrefix ++ t) :
    (∃ b, IsMissing theirRefs theirSymrefs b ∧ remoteNamespace remote.name ++ b = myRef ∧
      deleteMissingLoop theirRefs theirSymrefs remote (myRef :: myRefs) localRefname err refs =
        deleteMissingLoop theirRefs theirSymrefs remote myRefs none
          (if headsPrefix ++ b ∈ refs then none else some .notRef)
          ((refs.erase myRef).erase (headsPrefix ++ b))) ∨
      (∀ b, IsMissing theirRefs theirSymrefs b → remoteNamespace remote.name ++ b ≠ myRef) ∧
        ∃ localRefname',
          deleteMissingLoop theirRefs theirSymrefs remote (myRef :: myRefs) localRefname err refs =
            deleteMissingLoop theirRefs theirSymrefs remote myRefs localRefname' err refs := by
  rw [deleteMissingLoop]
  by_cases hremote : ∃ b, myRef = remoteNamespace remote.name ++ b
  swap
  · rw [not_exists] at hremote
    rw [comparedName_other hmirror hremote htag]
    exact .inr ⟨fun b _ heq => hremote b heq.symm, _, rfl⟩
  obtain ⟨b, rfl⟩ := hremote
  have hskip (h : ¬ IsMissing theirRefs theirSymrefs b) : ∀ b',
      IsMissing theirRefs theirSymrefs b' →
        remoteNamespace remote.name ++ b' ≠ remoteNamespace remote.name ++ b :=
    fun b' hb' heq => h (List.append_cancel_left heq ▸ hb')
  rw [comparedName_remote hmirror]
  by_cases hhead : b = GOT_REF_HEAD
  · rw [if_pos hhead]
    exact .inr ⟨hskip fun h => h.1 hhead, _, rfl⟩
  rw [if_neg hhead]
  dsimp only
  rw [isTheirs_some, isTheirs_some]
  by_cases hrefs : headsPrefix ++ b ∈ theirRefs
  · rw [decide_eq_true hrefs]
    exact .inr ⟨hskip fun h => h.2.1 hrefs, _, rfl⟩
  rw [decide_eq_false hrefs]
  by_cases hsymrefs : headsPrefix ++ b ∈ theirSymrefs
  · rw [decide_eq_true hsymrefs]
    exact .inr ⟨hskip fun h => h.2.2 hsymrefs, _, rfl⟩
  rw [decide_eq_false hsymrefs]
  dsimp only
  rw [deleteMissingRef_eq, deleteMissingRef_eq]
  have hlocal : headsPrefix ++ b ∈ refs.erase (remoteNamespace remote.name ++ b) ↔
      headsPrefix ++ b ∈ refs := by
    rw [AList.mem_erase, and_iff_right remoteNamespace_ne_heads.symm]
  refine .inl ⟨b, ⟨hhead, hrefs, hsymrefs⟩, rfl, ?_⟩
  by_cases hmem : headsPrefix ++ b ∈ refs
  · rw [if_pos (hlocal.mpr hmem), if_pos hmem]
  · have herase : (refs.erase (remoteNamespace remote.name ++ b)).erase (headsPrefix ++ b) =
        refs.erase (remoteNamespace remote.name ++ b) :=
      AList.ext (List.kerase_of_notMem_keys (mt hlocal.mp hmem))
    rw [if_neg (mt hlocal.mp hmem), if_neg hmem, herase]

/-- **The loop deletes these and keeps the others**, whether it ends with an error or not. -/
theorem deleteMissingLoop_spec (hmirror : remote.mirrorReferences = false)
    (htags : ∀ t, tagsPrefix ++ t ∉ myRefs) :
    ∃ err' refs',
      deleteMissingLoop theirRefs theirSymrefs remote myRefs localRefname err refs
        = (err', refs') ∧
      (∀ name, IsDeleted theirRefs theirSymrefs remote myRefs name → name ∉ refs') ∧
      ∀ name, ¬ IsDeleted theirRefs theirSymrefs remote myRefs name →
        refs'.lookup name = refs.lookup name := by
  induction myRefs generalizing localRefname err refs with
  | nil => exact ⟨err, refs, rfl, fun name ⟨_, _, h, _⟩ => (nomatch h), fun _ _ => rfl⟩
  | cons myRef myRefs ih =>
    have htags' : ∀ t, tagsPrefix ++ t ∉ myRefs := fun t h => htags t (List.mem_cons_of_mem _ h)
    have htag : ∀ t, myRef ≠ tagsPrefix ++ t := fun t h => htags t (h ▸ List.mem_cons_self)
    rcases deleteMissingLoop_cons hmirror htag with
      ⟨b, hmissing, heq, hstep⟩ | ⟨hskip, localRefname', hstep⟩
    · -- both the reference and the local branch are deleted, and stay so
      rw [hstep]
      obtain ⟨err', refs', hloop, hgone, hkept⟩ := @ih ((refs.erase myRef).erase (headsPrefix ++ b))
        none (if headsPrefix ++ b ∈ refs then none else some .notRef) htags'
      refine ⟨err', refs', hloop, fun name h => ?_, fun name h => ?_⟩
      · by_cases hlater : IsDeleted theirRefs theirSymrefs remote myRefs name
        · exact hgone name hlater
        · rw [← AList.lookup_eq_none, hkept name hlater, AList.lookup_eq_none, AList.mem_erase,
            AList.mem_erase]
          obtain ⟨b', -, heq', hname⟩ := (isDeleted_cons.mp h).resolve_right hlater
          obtain rfl := List.append_cancel_left (heq.trans heq'.symm)
          rw [heq] at hname
          tauto
      · rw [isDeleted_cons, not_or] at h
        have hne : name ≠ myRef ∧ name ≠ headsPrefix ++ b := by
          rw [← not_or]
          exact fun hname => h.1 ⟨b, hmissing, heq, heq ▸ hname⟩
        rw [hkept name h.2, AList.lookup_erase_ne hne.2, AList.lookup_erase_ne hne.1]
    · -- where nothing is missing the loop goes on with the same references
      rw [hstep]
      obtain ⟨err', refs', hloop, hgone, hkept⟩ := @ih refs localRefname' err htags'
      have hiff (name) := (@isDeleted_cons remote theirRefs theirSymrefs myRefs myRef name).trans
        (or_iff_right fun ⟨b, hb, heq, _⟩ => hskip b hb heq)
      exact ⟨err', refs', hloop, fun name h => hgone name ((hiff name).mp h),
        fun name h => hkept name fun h' => h ((hiff name).mpr h')⟩

/-- **The loop succeeds** if there is a local branch beside each reference that is missing. -/
theorem deleteMissingLoop_fst (hmirror : remote.mirrorReferences = false)
    (htags : ∀ t, tagsPrefix ++ t ∉ myRefs) (hnodup : myRefs.Nodup)
    (hlocal : ∀ b, IsMissing theirRefs theirSymrefs b → remoteNamespace remote.name ++ b ∈ myRefs →
      headsPrefix ++ b ∈ refs) :
    (deleteMissingLoop theirRefs theirSymrefs remote myRefs localRefname none refs).1 = none := by
  induction myRefs generalizing localRefname refs with
  | nil => rfl
  | cons myRef myRefs ih =>
    have htags' : ∀ t, tagsPrefix ++ t ∉ myRefs := fun t h => htags t (List.mem_cons_of_mem _ h)
    have htag : ∀ t, myRef ≠ tagsPrefix ++ t := fun t h => htags t (h ▸ List.mem_cons_self)
    obtain ⟨hnew, hnodup'⟩ := List.nodup_cons.mp hnodup
    rcases deleteMissingLoop_cons hmirror htag with
      ⟨b, hmissing, rfl, hstep⟩ | ⟨-, localRefname', hstep⟩
    · rw [hstep, if_pos (hlocal b hmissing List.mem_cons_self)]
      refine ih htags' hnodup' fun b' hb' hmem => ?_
      -- the branch that has been deleted is another one
      have hne : headsPrefix ++ b' ≠ headsPrefix ++ b := fun heq =>
        hnew (List.append_cancel_left heq ▸ hmem)
      rw [AList.mem_erase, AList.mem_erase]
      exact ⟨hne, remoteNamespace_ne_heads.symm, hlocal b' hb' (List.mem_cons_of_mem _ hmem)⟩
    · rw [hstep]
      exact ih htags' hnodup' fun b' hb' hmem => hlocal b' hb' (List.mem_cons_of_mem _ hmem)

/-- **The loop fails** if there is no local branch beside the reference which is visited last, and
which is missing. -/
theorem deleteMissingLoop_last (hmirror : remote.mirrorReferences = false)
    (htags : ∀ t, tagsPrefix ++ t ∉ myRefs) {b : Bytes} (hb : IsMissing theirRefs theirSymrefs b)
    (hlocal : headsPrefix ++ b ∉ refs) :
    (deleteMissingLoop theirRefs theirSymrefs remote (myRefs ++ [remoteNamespace remote.name ++ b])
      localRefname err refs).1 = some .notRef := by
  induction myRefs generalizing localRefname err refs with
  | nil =>
    rcases deleteMissingLoop_cons hmirror fun _ => remoteNamespace_ne_tags with
      ⟨b', -, heq, hstep⟩ | ⟨hskip, -⟩
    · obtain rfl := List.append_cancel_left heq
      rw [List.nil_append, hstep, if_neg hlocal]
      rfl
    · exact absurd rfl (hskip b hb)
  | cons myRef myRefs ih =>
    have htags' : ∀ t, tagsPrefix ++ t ∉ myRefs := fun t h => htags t (List.mem_cons_of_mem _ h)
    have htag : ∀ t, myRef ≠ tagsPrefix ++ t := fun t h => htags t (h ▸ List.mem_cons_self)
    rw [List.cons_append]
    rcases deleteMissingLoop_cons hmirror htag with ⟨b', -, -, hstep⟩ | ⟨-, localRefname', hstep⟩
    · rw [hstep]
      refine ih htags' fun hmem => hlocal ?_
      exact (AList.mem_erase.mp (AList.mem_erase.mp hmem).2).2
    · rw [hstep]
      exact ih htags' hlocal

/-! ## The whole -/

/-- Without a name to compare with, the loop cannot do anything. -/
theorem deleteMissingLoop_null {myRef : Bytes}
    (hcompared : comparedName remote myRef none = some none)
    (htheirs : theirRefs ≠ []) :
    deleteMissingLoop theirRefs theirSymrefs remote (myRef :: myRefs) none err refs
      = (some .outOfMap, refs) := by
  obtain ⟨path, theirs, rfl⟩ := List.exists_cons_of_ne_nil htheirs
  rw [deleteMissingLoop, hcompared]
  rfl

/-- **The name of a branch is passed on** to be compared with: as that of a symbolic reference which
has been found, or since it is selected and advertised behind the first line. -/
def IsPassedOn (f : Filters) (a : Advertisement) (name : Bytes) : Prop :=
  (∃ symref ∈ a.foundSymrefs, symref.1 = name) ∨
    Selected f (defaultBranch f a.foundSymrefs) name ∧ ∃ ref ∈ a.refs.tail, ref.2 = name

/-- **What counts as missing.** A branch, unless the helper passes its reference on. -/
theorem isMissing_iff {b : Bytes}
    (hfst : (fetchPackRefs f haveRefs a.packets).1 =
      a.refs.tail.filter (takes f (defaultBranch f a.foundSymrefs))) :
    IsMissing ((fetchPackRefs f haveRefs a.packets).1.map Prod.snd) (a.foundSymrefs.map Prod.fst) b
      ↔ b ≠ GOT_REF_HEAD ∧ ¬ IsPassedOn f a (headsPrefix ++ b) := by
  have hmem : headsPrefix ++ b ∈ (fetchPackRefs f haveRefs a.packets).1.map Prod.snd ↔
      Selected f (defaultBranch f a.foundSymrefs) (headsPrefix ++ b) ∧
        ∃ ref ∈ a.refs.tail, ref.2 = headsPrefix ++ b := by
    rw [hfst, List.mem_map]
    constructor
    · rintro ⟨ref, href, hname⟩
      obtain ⟨href, htakes⟩ := List.mem_filter.mp href
      exact ⟨hname ▸ (takes_iff _ ref).mp htakes, ref, href, hname⟩
    · rintro ⟨hselected, ref, href, hname⟩
      exact ⟨ref, List.mem_filter.mpr ⟨href, (takes_iff _ ref).mpr (hname ▸ hselected)⟩, hname⟩
  unfold IsMissing IsPassedOn
  rw [hmem, List.mem_map, not_or, and_comm (a := ¬ ∃ _, _)]

/-- **The references that are gone are deleted, and no other ones, exactly if** the repository is no
mirror, there are no local tags, and of the branches which have a local reference of a remote
branch, those which the server has are passed on and no other ones, and the others exist locally. -/
theorem deletesGone_iff {ids : List Sha1}
    (hfetch : (fetchPackRefs f haveRefs a.packets).2 = .ok ids)
    (hlist : f.listRefsOnly = false) (hhead : GOT_REF_HEAD ∈ refs) :
    DeletesGone f haveRefs a remote refs ↔
      remote.mirrorReferences = false ∧ (∀ t, tagsPrefix ++ t ∉ refs) ∧
        ∀ b, b ≠ GOT_REF_HEAD → remoteNamespace remote.name ++ b ∈ refs →
          (Advertises a (headsPrefix ++ b) ↔ IsPassedOn f a (headsPrefix ++ b)) ∧
            (¬ Advertises a (headsPrefix ++ b) → headsPrefix ++ b ∈ refs) := by
  obtain ⟨hfst, hne⟩ := fetchPackRefs_ok hfetch hlist
  have htheirs : (fetchPackRefs f haveRefs a.packets).1.map Prod.snd ≠ [] :=
    fun h => hne (List.map_eq_nil_iff.mp h)
  have hmissing {b : Bytes} := @isMissing_iff f haveRefs a b hfst
  constructor
  · intro h
    have hmirror : remote.mirrorReferences = false := by
      by_contra hmirror
      -- the reference which is visited first is compared
      obtain ⟨myRef, myRefs, hkeys⟩ := List.exists_cons_of_ne_nil (List.ne_nil_of_mem hhead)
      obtain ⟨refs', hok, -⟩ := h refs.keys (.refl _)
      unfold deleteMissingRefs at hok
      rw [show refs.keys = _ from hkeys, deleteMissingLoop_null (by
        unfold comparedName
        rw [if_neg (not_not.mpr (by simpa using hmirror))]) htheirs] at hok
      cases hok
    have htags : ∀ t, tagsPrefix ++ t ∉ refs := by
      intro t ht
      -- the tag may be visited first
      obtain ⟨refs', hok, -⟩ := h _ (List.perm_cons_erase (AList.mem_keys.mp ht)).symm
      unfold deleteMissingRefs at hok
      rw [deleteMissingLoop_null (by
        unfold comparedName
        dsimp only
        rw [hmirror, if_pos (by decide), if_neg
          (not_isPrefixOf fun b => remoteNamespace_ne_tags.symm),
          if_neg (not_not.mpr (isPrefixOf_append _ t))]) htheirs] at hok
      cases hok
    refine ⟨hmirror, htags, fun b hb hremote => ?_⟩
    obtain ⟨refs', hok, honly⟩ := h refs.keys (.refl _)
    obtain ⟨err', refs'', hok', hdeleted, hkept⟩ := @deleteMissingLoop_spec remote refs
      ((fetchPackRefs f haveRefs a.packets).1.map Prod.snd) (a.foundSymrefs.map Prod.fst) refs.keys
      none none hmirror fun t ht => htags t (AList.mem_keys.mpr ht)
    obtain rfl := (Prod.mk.inj (hok'.symm.trans hok)).2
    have hiff : Advertises a (headsPrefix ++ b) ↔ IsPassedOn f a (headsPrefix ++ b) := by
      constructor
      · intro hadvertised
        by_contra hnot
        have hgone := hdeleted _ ⟨b, hmissing.mpr ⟨hb, hnot⟩, AList.mem_keys.mp hremote, .inl rfl⟩
        -- yet it is not gone from the server
        rw [← AList.lookup_eq_none, honly.kept, AList.lookup_eq_none] at hgone
        · exact hgone hremote
        · intro hgone
          generalize hname : remoteNamespace remote.name ++ b = name at hgone
          cases hgone with
          | remoteBranch _ hgone => exact hgone (List.append_cancel_left hname ▸ hadvertised)
          | localBranch _ _ _ => exact remoteNamespace_ne_heads hname
          | tag _ => exact remoteNamespace_ne_tags hname
      · intro hpassed
        by_contra hnot
        have hgone := honly.gone _ (.remoteBranch hb hnot)
        -- yet it is not missing
        rw [← AList.lookup_eq_none, hkept, AList.lookup_eq_none] at hgone
        · exact hgone hremote
        · rintro ⟨b', hb', -, hname | hname⟩
          · obtain rfl := List.append_cancel_left hname
            exact (hmissing.mp hb').2 hpassed
          · exact remoteNamespace_ne_heads hname
    refine ⟨hiff, fun hnot => ?_⟩
    by_contra hlocal
    -- the reference may be visited last
    have hperm : (refs.keys.erase (remoteNamespace remote.name ++ b) ++
        [remoteNamespace remote.name ++ b]).Perm refs.keys :=
      (List.perm_append_singleton _ _).trans
        (List.perm_cons_erase (AList.mem_keys.mp hremote)).symm
    obtain ⟨refs₁, hok₁, -⟩ := h _ hperm
    have hlast := @deleteMissingLoop_last remote refs
      ((fetchPackRefs f haveRefs a.packets).1.map Prod.snd) (a.foundSymrefs.map Prod.fst)
      (refs.keys.erase (remoteNamespace remote.name ++ b)) none none hmirror
      (fun t ht => htags t (AList.mem_keys.mpr (List.mem_of_mem_erase ht))) b
      (hmissing.mpr ⟨hb, mt hiff.mpr hnot⟩) hlocal
    unfold deleteMissingRefs at hok₁
    rw [hok₁] at hlast
    cases hlast
  · rintro ⟨hmirror, htags, hbranches⟩ myRefs hperm
    have hmy {name : Bytes} : name ∈ myRefs ↔ name ∈ refs :=
      hperm.mem_iff.trans AList.mem_keys.symm
    have htags' : ∀ t, tagsPrefix ++ t ∉ myRefs := fun t ht => htags t (hmy.mp ht)
    -- what is missing is what is gone
    have hgone_iff {b : Bytes} (hlocal : remoteNamespace remote.name ++ b ∈ myRefs) :
        IsMissing ((fetchPackRefs f haveRefs a.packets).1.map Prod.snd)
          (a.foundSymrefs.map Prod.fst) b ↔
          b ≠ GOT_REF_HEAD ∧ ¬ Advertises a (headsPrefix ++ b) := by
      refine hmissing.trans (and_congr_right fun hb => not_congr ?_)
      exact (hbranches b hb (hmy.mp hlocal)).1.symm
    obtain ⟨err', refs', hok, hdeleted, hkept⟩ := @deleteMissingLoop_spec remote refs
      ((fetchPackRefs f haveRefs a.packets).1.map Prod.snd) (a.foundSymrefs.map Prod.fst) myRefs
      none none hmirror htags'
    have hnone : err' = none := by
      have hfst := @deleteMissingLoop_fst remote refs
        ((fetchPackRefs f haveRefs a.packets).1.map Prod.snd) (a.foundSymrefs.map Prod.fst) myRefs
        none hmirror htags' (hperm.nodup_iff.mpr refs.keys_nodup) fun b hb hlocal => by
          obtain ⟨hb, hnot⟩ := (hgone_iff hlocal).mp hb
          exact (hbranches b hb (hmy.mp hlocal)).2 hnot
      rwa [hok] at hfst
    subst hnone
    refine ⟨refs', hok, fun name hgone => ?_, fun name hgone => hkept name ?_⟩
    · by_cases hmem : IsDeleted ((fetchPackRefs f haveRefs a.packets).1.map Prod.snd)
        (a.foundSymrefs.map Prod.fst) remote myRefs name
      · exact hdeleted name hmem
      · rw [← AList.lookup_eq_none, hkept name hmem, AList.lookup_eq_none]
        intro hlocal
        cases hgone with
        | remoteBranch hb hgone =>
          have hlocal := hmy.mpr hlocal
          exact hmem ⟨_, (hgone_iff hlocal).mpr ⟨hb, hgone⟩, hlocal, .inl rfl⟩
        | localBranch hb hremote hgone =>
          have hremote := hmy.mpr hremote
          exact hmem ⟨_, (hgone_iff hremote).mpr ⟨hb, hgone⟩, hremote, .inr rfl⟩
        | tag hgone => exact htags _ hlocal
    · rintro ⟨b, hb, hlocal, rfl | rfl⟩
      · obtain ⟨hb, hnot⟩ := (hgone_iff hlocal).mp hb
        exact hgone (.remoteBranch hb hnot)
      · obtain ⟨hb, hnot⟩ := (hgone_iff hlocal).mp hb
        exact hgone (.localBranch hb (hmy.mp hlocal) hnot)

/-- A server with two branches, of which `refs/heads/main` is the one that `HEAD` points to. -/
def twoBranches : Advertisement where
  lines := [((oidOf [], text "HEAD"), []), ((oidOf [], text "refs/heads/b"), []),
    ((oidOf [], text "refs/heads/main"), [])]
  capabilities := text "symref=HEAD:refs/heads/main"
  names := by
    simp only [List.mem_cons, List.not_mem_nil, or_false, forall_eq_or_imp, forall_eq]
    exact ⟨⟨by decide, by decide +kernel⟩, ⟨by decide, by decide +kernel⟩,
      ⟨by decide, by decide +kernel⟩⟩
  no_zero := by decide

/-- The local references, where two branches have been fetched before, of which the server does not
have `refs/heads/old` any more. -/
def clonedRefs : LocalRefs :=
  [⟨text "HEAD", .symref (text "refs/heads/main")⟩, ⟨text "refs/heads/b", .oid (oidOf [])⟩,
    ⟨text "refs/heads/old", .oid (oidOf [])⟩, ⟨text "refs/remotes/origin/b", .oid (oidOf [])⟩,
    ⟨text "refs/remotes/origin/old", .oid (oidOf [])⟩].toAList

/-- The remote `origin`, not a mirror. -/
def origin : RemoteRepo := ⟨text "origin", false⟩

/-- **If all branches are fetched** then what is deleted is what is gone. -/
theorem deletesGone_twoBranches :
    DeletesGone ⟨true, [], [], false⟩ [] twoBranches origin clonedRefs := by
  have hkeys : clonedRefs.keys =
      [text "HEAD", text "refs/heads/b", text "refs/heads/old",
        remoteNamespace origin.name ++ text "b", remoteNamespace origin.name ++ text "old"] := by
    decide
  have hfetch : (fetchPackRefs ⟨true, [], [], false⟩ [] twoBranches.packets).2 =
      .ok [] := by decide +kernel
  refine (deletesGone_iff hfetch rfl ?_).mpr ⟨rfl, fun t ht => ?_, fun b _ hb => ?_⟩
  · rw [AList.mem_keys, hkeys]
    exact List.mem_cons_self
  · have hc := getElem?_tagsPrefix t
    rw [AList.mem_keys, hkeys] at ht
    simp only [List.mem_cons, List.not_mem_nil, or_false] at ht
    rcases ht with ht | ht | ht | ht | ht <;> rw [ht] at hc <;> exact absurd hc (by decide)
  · have hc := getElem?_remoteNamespace origin.name b
    rw [AList.mem_keys, hkeys] at hb
    simp only [List.mem_cons, List.not_mem_nil, or_false] at hb
    rcases hb with hb | hb | hb | hb | hb
    · rw [hb] at hc
      exact absurd hc (by decide)
    · rw [hb] at hc
      exact absurd hc (by decide)
    · rw [hb] at hc
      exact absurd hc (by decide)
    · obtain rfl := List.append_cancel_left hb
      have hadvertised : Advertises twoBranches (headsPrefix ++ text "b") :=
        .inl ⟨(oidOf [], text "refs/heads/b"), by decide, by decide⟩
      refine ⟨iff_of_true hadvertised (.inr ⟨⟨by decide, ?_⟩, by decide⟩), absurd hadvertised⟩
      rw [if_pos (by decide)]
      exact .inl rfl
    · obtain rfl := List.append_cancel_left hb
      refine ⟨iff_of_false ?_ ?_, fun _ => ?_⟩
      · unfold Advertises
        decide
      · unfold IsPassedOn
        rintro (h | h)
        · exact absurd h (by decide)
        · exact absurd h.2 (by decide)
      · rw [AList.mem_keys, hkeys]
        decide

/-- What is fetched by default is the branch that `HEAD` points to. -/
def defaultOnly : Filters := ⟨false, [], [], false⟩

/-- **A local branch is deleted which the server has**, since it was not fetched. -/
theorem not_deletesGone_twoBranches :
    Advertises twoBranches (text "refs/heads/b") ∧
      (deleteMissingRefs ((fetchPackRefs defaultOnly [] twoBranches.packets).1.map Prod.snd)
        (twoBranches.foundSymrefs.map Prod.fst) origin clonedRefs.keys clonedRefs).2.entries =
          [⟨text "HEAD", .symref (text "refs/heads/main")⟩] ∧
      ¬ DeletesGone defaultOnly [] twoBranches origin clonedRefs := by
  have hrun : (deleteMissingRefs ((fetchPackRefs defaultOnly [] twoBranches.packets).1.map Prod.snd)
      (twoBranches.foundSymrefs.map Prod.fst) origin clonedRefs.keys clonedRefs).2.entries =
      [⟨text "HEAD", .symref (text "refs/heads/main")⟩] := by decide +kernel
  have hadvertised : Advertises twoBranches (text "refs/heads/b") :=
    .inl ⟨(oidOf [], text "refs/heads/b"), by decide, rfl⟩
  refine ⟨hadvertised, hrun, fun h => ?_⟩
  obtain ⟨refs', hok, honly⟩ := h clonedRefs.keys (.refl _)
  rw [hok] at hrun
  have hgone : text "refs/heads/b" ∉ refs' := by
    rw [AList.mem_keys, AList.keys, hrun]
    decide
  rw [← AList.lookup_eq_none, honly.kept, AList.lookup_eq_none, AList.mem_keys] at hgone
  · exact hgone (by decide)
  · intro hgone
    generalize hname : text "refs/heads/b" = name at hgone hadvertised
    cases hgone with
    | @remoteBranch b _ _ =>
      have hc := getElem?_remoteNamespace origin.name b
      rw [← hname] at hc
      exact absurd hc (by decide)
    | localBranch _ _ hgone => exact hgone hadvertised
    | tag hgone => exact hgone hadvertised

end Fetch

end Got

import Got.Lib.Links
import Got.Reference.Open

/-!
# Resolving references

A symbolic reference names another reference, so that references form chains. The end of a
chain is looked for by one function, which opens the next reference and calls itself, and the
object is taken from there by another one, which counts how often it has called itself.

The first one is what goes along the chain, and it does not count. So it never comes back from
a cycle (`resolveSymbolicRef_eq_fuel_iff`), while the limit is never reached, and a chain which
is no cycle is followed to its end however long it is (`PointsTo.gotRefResolve`).
-/

namespace Got

namespace RefStore

open Lines Links ObjectFile

def GOT_REF_RECURSE_MAX : ℕ := 20

/-- `resolve_symbolic_ref`, of the reference which a symbolic reference points at. -/
def resolveSymbolicRef (store : RefStore) : ℕ → Bytes → Except GotErr DiskRef
  | 0, _ => .error .fuel
  | fuel + 1, ref => do
    let nextref ← store.gotRefOpen ref
    match nextref.target with
    | .symref ref => resolveSymbolicRef store fuel ref
    | .oid _ => return nextref

/-- `ref_resolve` -/
def refResolve (store : RefStore) (fuel : ℕ) : ℕ → DiskRef → Except GotErr Sha1
  | 0, _ => .error .recursion
  | recursion + 1, ref =>
    match ref.target with
    | .oid id => .ok id
    | .symref target => do
      let resolved ← store.resolveSymbolicRef fuel target
      refResolve store fuel recursion resolved

/-- **`got_ref_resolve`** -/
def gotRefResolve (store : RefStore) (fuel : ℕ) (ref : DiskRef) : Except GotErr Sha1 :=
  store.refResolve fuel GOT_REF_RECURSE_MAX ref

/-! ## Chains -/

/-- The reference which is pointed at by the reference of some name. -/
def nextSymref (store : RefStore) (ref : Bytes) : Option Bytes :=
  match store.gotRefOpen ref with
  | .ok ⟨_, .symref next, _⟩ => some next
  | _ => none

/-- **A chain of symbolic references which ends at an object.** -/
inductive PointsTo (store : RefStore) : ℕ → DiskRef → Sha1 → Prop
  | oid {ref : DiskRef} {id : Sha1} (htarget : ref.target = .oid id) : PointsTo store 0 ref id
  | symref {n : ℕ} {ref nextref : DiskRef} {target : Bytes} {id : Sha1}
      (htarget : ref.target = .symref target) (hopen : store.gotRefOpen target = .ok nextref)
      (hnext : PointsTo store n nextref id) : PointsTo store (n + 1) ref id

/-- A chain which comes to some reference again. -/
def IsCyclic (store : RefStore) (ref : DiskRef) : Prop :=
  ∃ target, ref.target = .symref target ∧ Cyclic store.nextSymref target

variable {store : RefStore} {ref : DiskRef} {refname target : Bytes}

/-! ## Only so many references are pointed at -/

/-- What a symbolic reference in a file points at. -/
def symrefText (content : Bytes) : Bytes :=
  ((lineBuffer ((lines isNewline content).headD [])).takeWhile (· ≠ 0)).drop 5

/-- The target is what is behind `ref: `. -/
theorem parseRefLine_symref {absname line : Bytes} (h : parseRefLine absname line = .ok ref)
    (htarget : ref.target = .symref target) : target = line.drop 5 := by
  unfold parseRefLine parseSymref at h
  split at h
  · split at h <;> cases h
    exact (RefTarget.symref.inj htarget).symm
  · split at h <;> cases h
    exact nomatch htarget

/-- The target of a symbolic reference is what its file says. -/
theorem parseRefContent_symref {absname content : Bytes}
    (h : parseRefContent absname content = .ok (some ref)) (htarget : ref.target = .symref target) :
    target = symrefText content := by
  unfold parseRefContent at h
  split at h
  · cases h
  · next line rest hlines =>
    obtain ⟨ref', hparse, heq⟩ := Records.map_eq_ok_iff.mp h
    obtain rfl := Option.some.inj heq
    rw [symrefText, hlines]
    exact parseRefLine_symref hparse htarget

/-- **What a loose reference points at is in a file.** -/
theorem parseRefFile_symref {absname abspath : Bytes}
    (h : store.parseRefFile absname abspath = .ok (some ref))
    (htarget : ref.target = .symref target) : ∃ f ∈ store.files, target = symrefText f.2 := by
  unfold parseRefFile at h
  split at h
  · cases h
  · next content hfile =>
    obtain ⟨before, after, hfiles, -⟩ := List.lookup_eq_some_iff.mp hfile
    refine ⟨(abspath, content), ?_, parseRefContent_symref h htarget⟩
    rw [hfiles]
    exact List.mem_append_right _ List.mem_cons_self

/-- A symbolic reference that is opened comes from a file. -/
theorem openRef_symref {pathRefs subdir : Bytes}
    (h : store.openRef pathRefs subdir refname = .ok (some ref))
    (htarget : ref.target = .symref target) : ∃ f ∈ store.files, target = symrefText f.2 := by
  unfold openRef at h
  split at h
  · exact parseRefFile_symref h htarget
  · split at h <;> exact parseRefFile_symref h htarget

/-- A symbolic reference comes from a file. -/
theorem openLoose_symref {pathRefs : Bytes} {dirs : List Bytes}
    (h : store.openLoose pathRefs refname dirs = .ok (some ref))
    (htarget : ref.target = .symref target) : ∃ f ∈ store.files, target = symrefText f.2 := by
  induction dirs with
  | nil => cases h
  | cons subdir rest ih =>
    unfold openLoose at h
    split at h
    · exact ih h
    · cases h
    · exact ih h
    · next hopen => exact openRef_symref (hopen.trans h) htarget

/-- **What a symbolic reference points at is in a file.** -/
theorem gotRefOpen_symref (h : store.gotRefOpen refname = .ok ref)
    (htarget : ref.target = .symref target) : ∃ f ∈ store.files, target = symrefText f.2 := by
  unfold gotRefOpen at h
  split at h
  · obtain ⟨found, hopen, h⟩ := bind_eq_ok_iff.mp h
    rw [found_eq_ok_iff] at h
    subst h
    exact openRef_symref hopen htarget
  · obtain ⟨loose, hloose, h⟩ := bind_eq_ok_iff.mp h
    cases loose with
    | some loose =>
      cases h
      exact openLoose_symref hloose htarget
    | none =>
      obtain ⟨found, hpacked, h⟩ := bind_eq_ok_iff.mp h
      rw [found_eq_ok_iff] at h
      subst h
      unfold openPacked at hpacked
      split at hpacked
      · cases hpacked
      · obtain ⟨id, hid⟩ := openPackedRef_packed hpacked
        rw [hid] at htarget
        cases htarget

/-- The next step of a chain is where a symbolic reference points. -/
theorem nextSymref_eq_some_iff :
    store.nextSymref refname = some target ↔
      ∃ ref, store.gotRefOpen refname = .ok ref ∧ ref.target = .symref target := by
  unfold nextSymref
  split
  · next name next packed hopen =>
    rw [hopen]
    refine ⟨fun h => ⟨_, rfl, congrArg _ (Option.some.inj h)⟩, ?_⟩
    rintro ⟨ref, heq, htarget⟩
    obtain rfl := Except.ok.inj heq
    exact congrArg some (RefTarget.symref.inj htarget)
  · next hne =>
    refine ⟨fun h => (nomatch h), ?_⟩
    rintro ⟨⟨name, _, packed⟩, hopen, rfl⟩
    exact absurd hopen (hne _ _ _)

/-- Only so many things are named by symbolic references. -/
theorem finite_nextSymref (store : RefStore) :
    {next | ∃ ref, store.nextSymref ref = some next}.Finite := by
  refine (store.files.map fun f => symrefText f.2).toFinset.finite_toSet.subset ?_
  rintro next ⟨refname, h⟩
  obtain ⟨ref, hopen, htarget⟩ := nextSymref_eq_some_iff.mp h
  obtain ⟨f, hf, heq⟩ := gotRefOpen_symref hopen htarget
  exact List.mem_toFinset.mpr (List.mem_map.mpr ⟨f, hf, heq.symm⟩)

/-! ## A cycle has no end -/

theorem stringAt_ne_fuel (buf : Bytes) (i : ℕ) : stringAt buf i ≠ .error .fuel := by
  unfold stringAt
  split <;> nofun

/-- Reading a file never runs out of fuel. -/
theorem parseRefFile_ne_fuel (store : RefStore) (absname abspath : Bytes) :
    store.parseRefFile absname abspath ≠ .error .fuel := by
  unfold parseRefFile
  split
  · nofun
  · unfold parseRefContent
    split
    · nofun
    · refine bind_ne_error (f := fun ref => .ok (some ref)) ?_ nofun
      unfold parseRefLine parseSymref
      split <;> split <;> nofun

/-- Nor does opening one file. -/
theorem openRef_ne_fuel (store : RefStore) (pathRefs subdir name : Bytes) :
    store.openRef pathRefs subdir name ≠ .error .fuel := by
  unfold openRef
  split
  · exact parseRefFile_ne_fuel _ _ _
  · split <;> exact parseRefFile_ne_fuel _ _ _

/-- Nor does looking through the directories. -/
theorem openLoose_ne_fuel (store : RefStore) (pathRefs refname : Bytes) (dirs : List Bytes) :
    store.openLoose pathRefs refname dirs ≠ .error .fuel := by
  induction dirs with
  | nil => nofun
  | cons subdir rest ih =>
    unfold openLoose
    split
    · exact ih
    · next e _ hopen => exact fun h => openRef_ne_fuel _ _ _ _ (hopen.trans h)
    · exact ih
    · nofun

/-- Nor does reading a packed line. -/
theorem parsePackedRefLine_ne_fuel (absname : Option Bytes) (line : Bytes) :
    parsePackedRefLine absname line ≠ .error .fuel := by
  unfold parsePackedRefLine
  split
  · nofun
  · split
    · nofun
    · refine bind_ne_error (stringAt_ne_fuel _ _) fun name => ?_
      split
      · nofun
      · split <;> nofun

/-- Nor does matching a packed line. -/
theorem openPackedLine_ne_fuel (refname line : Bytes) (dirs : List Bytes) :
    openPackedLine refname line dirs ≠ .error .fuel := by
  induction dirs with
  | nil => nofun
  | cons subdir rest ih =>
    refine bind_ne_error (parsePackedRefLine_ne_fuel _ _) fun found => ?_
    cases found with
    | none => exact ih
    | some ref => nofun

/-- Nor does looking through the packed lines. -/
theorem openPackedRef_ne_fuel (refname : Bytes) (ls : List Bytes) :
    openPackedRef refname ls ≠ .error .fuel := by
  induction ls with
  | nil => nofun
  | cons line rest ih =>
    refine bind_ne_error (openPackedLine_ne_fuel _ _ _) fun found => ?_
    cases found with
    | none => exact ih
    | some ref => nofun

theorem found_ne_fuel (found' : Option DiskRef) : found found' ≠ .error .fuel := by
  cases found' <;> nofun

/-- Opening a reference always comes to an end. -/
theorem gotRefOpen_ne_fuel (store : RefStore) (refname : Bytes) :
    store.gotRefOpen refname ≠ .error .fuel := by
  unfold gotRefOpen
  split
  · exact bind_ne_error (openRef_ne_fuel _ _ _ _) found_ne_fuel
  · refine bind_ne_error (openLoose_ne_fuel _ _ _ _) fun loose => ?_
    cases loose with
    | some ref => nofun
    | none =>
      refine bind_ne_error ?_ found_ne_fuel
      unfold openPacked
      split
      · nofun
      · exact openPackedRef_ne_fuel _ _

/-- **The recursion goes along the chain**, and is still going as long as there are links. -/
theorem resolveSymbolicRef_eq_fuel_iff (store : RefStore) (fuel : ℕ) (target : Bytes) :
    store.resolveSymbolicRef fuel target = .error .fuel ↔
      HasLinks store.nextSymref fuel target := by
  induction fuel generalizing target with
  | zero => exact ⟨fun _ => hasLinks_zero _, fun _ => rfl⟩
  | succ fuel ih =>
    unfold resolveSymbolicRef
    cases hopen : store.gotRefOpen target with
    | error e =>
      have hnone : store.nextSymref target = none := by rw [nextSymref, hopen]
      refine ⟨fun h => ?_, fun h => absurd h (not_hasLinks_succ_of_none hnone fuel)⟩
      rw [error_bind] at h
      exact absurd (hopen.trans h) (store.gotRefOpen_ne_fuel target)
    | ok nextref =>
      rw [ok_bind]
      obtain ⟨name, target', packed⟩ := nextref
      cases target' with
      | oid id =>
        have hnone : store.nextSymref target = none := by rw [nextSymref, hopen]
        exact ⟨fun h => (nomatch h), fun h => absurd h (not_hasLinks_succ_of_none hnone fuel)⟩
      | symref next =>
        have hnext : store.nextSymref target = some next := by rw [nextSymref, hopen]
        rw [hasLinks_succ_of_some hnext]
        exact ih next

/-- **A chain is followed to its end**, by a recursion which is as deep as the chain is long. -/
theorem PointsTo.resolveSymbolicRef {n : ℕ} {id : Sha1} (h : store.PointsTo n ref id)
    (htarget : ref.target = .symref target) :
    ∃ resolved, store.resolveSymbolicRef n target = .ok resolved ∧ resolved.target = .oid id := by
  induction h generalizing target with
  | oid hoid => exact nomatch htarget.symm.trans hoid
  | @symref n ref nextref target' id htarget' hopen hnext ih =>
    obtain rfl := RefTarget.symref.inj (htarget.symm.trans htarget')
    unfold RefStore.resolveSymbolicRef
    rw [hopen, ok_bind]
    cases hnextref : nextref.target with
    | symref next => exact ih hnextref
    | oid id' =>
      cases hnext with
      | oid hoid => exact ⟨nextref, rfl, hoid⟩
      | symref hsymref => exact nomatch hnextref.symm.trans hsymref

/-- The limit is not reached, as the references of the chain are not counted. -/
theorem PointsTo.gotRefResolve {n : ℕ} {id : Sha1} (h : store.PointsTo n ref id) :
    store.gotRefResolve n ref = .ok id := by
  unfold RefStore.gotRefResolve GOT_REF_RECURSE_MAX refResolve
  cases htarget : ref.target with
  | oid id' =>
    cases h with
    | oid hoid => exact congrArg Except.ok (RefTarget.oid.inj (htarget.symm.trans hoid))
    | symref hsymref => exact nomatch htarget.symm.trans hsymref
  | symref target =>
    obtain ⟨resolved, hresolve, hoid⟩ := h.resolveSymbolicRef htarget
    dsimp only
    rw [hresolve, ok_bind, refResolve, hoid]

/-- What the recursion comes back with is an object. -/
theorem oid_of_resolveSymbolicRef {fuel : ℕ} {resolved : DiskRef}
    (h : store.resolveSymbolicRef fuel target = .ok resolved) :
    ∃ id, resolved.target = .oid id := by
  induction fuel generalizing target with
  | zero => exact nomatch h
  | succ fuel ih =>
    obtain ⟨nextref, -, h⟩ := bind_eq_ok_iff.mp h
    split at h
    · exact ih h
    · next id hid =>
      obtain rfl := Except.ok.inj h
      exact ⟨id, hid⟩

/-- A reference is resolved without an end if the recursion has none. -/
theorem gotRefResolve_eq_fuel_iff (fuel : ℕ) (htarget : ref.target = .symref target) :
    store.gotRefResolve fuel ref = .error .fuel ↔ HasLinks store.nextSymref fuel target := by
  rw [← resolveSymbolicRef_eq_fuel_iff]
  unfold gotRefResolve GOT_REF_RECURSE_MAX refResolve
  rw [htarget]
  dsimp only
  cases hresolve : store.resolveSymbolicRef fuel target with
  | error e => exact ⟨fun h => congrArg _ (Except.error.inj h),
      fun h => congrArg _ (Except.error.inj h)⟩
  | ok resolved =>
    obtain ⟨id, hid⟩ := oid_of_resolveSymbolicRef hresolve
    rw [ok_bind, refResolve, hid]
    exact ⟨nofun, nofun⟩

/-! ## What is promised -/

/-- **References are resolved** if that comes to an end, in an error for a cycle, and with the
object for any chain that is not too long. -/
structure Resolves (store : RefStore) (ref : DiskRef) : Prop where
  ends : ∃ fuel, store.gotRefResolve fuel ref ≠ .error .fuel
  recursion : store.IsCyclic ref → ∃ fuel, store.gotRefResolve fuel ref = .error .recursion
  oid : ∀ n id, n ≤ GOT_REF_RECURSE_MAX → store.PointsTo n ref id →
    ∃ fuel, store.gotRefResolve fuel ref = .ok id

/-- **References are resolved as long as there is no cycle.** A step of the resolution opens what
the reference before it names. What is named is written in a file of the repository, of which there
are only so many, so that a chain with more steps than that comes to a name for the second time, and
from there on it never ends. -/
theorem resolves_iff (store : RefStore) (ref : DiskRef) :
    store.Resolves ref ↔ ¬store.IsCyclic ref := by
  constructor
  · rintro ⟨⟨fuel, hends⟩, -, -⟩ ⟨target, htarget, hcyclic⟩
    rw [Ne, gotRefResolve_eq_fuel_iff fuel htarget] at hends
    exact hends ((cyclic_iff (finite_nextSymref store)).mp hcyclic fuel)
  · intro hacyclic
    refine ⟨?_, fun hcyclic => absurd hcyclic hacyclic, fun n id _ h => ⟨n, h.gotRefResolve⟩⟩
    cases htarget : ref.target with
    | oid id => exact ⟨0, by rw [(PointsTo.oid htarget).gotRefResolve]; nofun⟩
    | symref target =>
      have hends : ¬∀ n, HasLinks store.nextSymref n target := fun h =>
        hacyclic ⟨target, htarget, (cyclic_iff (finite_nextSymref store)).mpr h⟩
      obtain ⟨fuel, hfuel⟩ := not_forall.mp hends
      exact ⟨fuel, fun h => hfuel ((gotRefResolve_eq_fuel_iff fuel htarget).mp h)⟩

/-- A branch which is a symbolic reference to itself. -/
def selfStore : RefStore := ⟨[(text "/refs/heads/a", text "ref: refs/heads/a\n")], none⟩

/-- `got_ref_resolve` does not come back from a reference to itself. -/
theorem not_resolves_selfStore :
    ¬selfStore.Resolves ⟨text "refs/heads/a", .symref (text "refs/heads/a"), false⟩ := by
  rintro ⟨⟨fuel, hends⟩, -, -⟩
  have hself : selfStore.nextSymref (text "refs/heads/a") = some (text "refs/heads/a") := by
    decide
  exact hends ((gotRefResolve_eq_fuel_iff fuel rfl).mpr (hasLinks_of_self hself fuel))

end RefStore

end Got

import Got.Fetch.LocalRefs
import Got.Reference.Resolve
import Got.Reference.Write

/-!
# Updating references

After a fetch each reference that was fetched is recorded below `refs/remotes/`: a branch by
its name, and a reference that was asked for by itself by its name below `refs/`. Tags and local
branches are created if they are not there, unless they were asked for by themselves.

So the branch `heads/x` is recorded where the branch `x` is if that was asked for by itself, and the
one that comes later in the list stays. Apart from this the references do not interfere.
-/

namespace Got

open ObjectFile FetchPack ActionM RefStore

namespace Fetch

/-- A name has an object. -/
def Names (store : RefStore) (name : Bytes) (id : Sha1) : Prop :=
  ∃ ref, store.gotRefOpen name = .ok ref ∧ ref.target = .oid id

variable {fuel : ℕ} {opts : FetchOptions} {ref : Ref} {refs : List Ref} {store store' : RefStore}
  {name : Bytes} {id : Sha1} {replaceTags : Bool}

/-! ## What is done to one name -/

theorem gotRefResolve_oid {found : DiskRef} {oldId : Sha1} (h : found.target = .oid oldId) :
    store.gotRefResolve fuel found = .ok oldId := by
  unfold RefStore.gotRefResolve refResolve GOT_REF_RECURSE_MAX
  dsimp only
  rw [h]

theorem Names.congr (h : Names store name id)
    (hopen : store'.gotRefOpen name = store.gotRefOpen name) : Names store' name id := by
  obtain ⟨found, hfound, htarget⟩ := h
  exact ⟨found, hopen.trans hfound, htarget⟩

end Fetch

end Got

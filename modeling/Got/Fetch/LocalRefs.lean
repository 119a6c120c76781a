import Mathlib.Data.List.AList
import Got.FetchPack.Selected
import Got.Reference.Store

/-!
# The references of the local repository

What is fetched is recorded in references of the local repository. For each remote repository
there are references of its own, which have names below `refs/remotes/` and its name.

References are looked up by their full names here, and each name has one of them. Where a
reference is stored, and what is done to the files, does not matter.
-/

namespace Got

open ObjectFile FetchPack

/-- **The references of the local repository**, by their names. -/
abbrev LocalRefs := AList fun _ : Bytes => RefTarget

/-- `struct got_remote_repo`, as far as references are concerned. -/
structure RemoteRepo where
  name : Bytes
  mirrorReferences : Bool

namespace Fetch

def GOT_REF_HEAD : Bytes := text "HEAD"

/-- `remote_namespace`, below which there are the references of a remote repository. -/
def remoteNamespace (remoteName : Bytes) : Bytes := text "refs/remotes/" ++ remoteName ++ [0x2f]

variable {remoteName b b' : Bytes}

/-! ## Names which are different -/

theorem getElem?_headsPrefix (b : Bytes) : (headsPrefix ++ b)[5]? = some 0x68 := by
  rw [List.getElem?_append_left (by decide)]
  decide

theorem getElem?_tagsPrefix (b : Bytes) : (tagsPrefix ++ b)[5]? = some 0x74 := by
  rw [List.getElem?_append_left (by decide)]
  decide

theorem getElem?_remoteNamespace (remoteName b : Bytes) :
    (remoteNamespace remoteName ++ b)[5]? = some 0x72 := by
  rw [remoteNamespace, List.append_assoc, List.append_assoc, List.getElem?_append_left (by decide)]
  decide

theorem remoteNamespace_ne_heads : remoteNamespace remoteName ++ b ≠ headsPrefix ++ b' := by
  intro h
  have hc := getElem?_remoteNamespace remoteName b
  rw [h, getElem?_headsPrefix] at hc
  exact absurd hc (by decide)

theorem remoteNamespace_ne_tags : remoteNamespace remoteName ++ b ≠ tagsPrefix ++ b' := by
  intro h
  have hc := getElem?_remoteNamespace remoteName b
  rw [h, getElem?_tagsPrefix] at hc
  exact absurd hc (by decide)

/-- A name with a prefix. -/
theorem exists_append_of_isPrefixOf {pre name : Bytes} (h : pre.isPrefixOf name = true) :
    ∃ b, name = pre ++ b := by
  obtain ⟨b, rfl⟩ := List.isPrefixOf_iff_prefix.mp h
  exact ⟨b, rfl⟩

theorem isPrefixOf_append (pre b : Bytes) : pre.isPrefixOf (pre ++ b) = true :=
  List.isPrefixOf_iff_prefix.mpr (List.prefix_append pre b)

theorem not_isPrefixOf {pre name : Bytes} (h : ∀ b, name ≠ pre ++ b) :
    ¬ pre.isPrefixOf name = true :=
  fun hpre => (exists_append_of_isPrefixOf hpre).elim fun b hb => h b hb

end Fetch

end Got

import Got.Reference.Delete

/-!
# Writing references

A reference is written to its file, wherever it was before. So it is found there from then on,
also if there is a line for it in `packed-refs`, and all other references stay where they are.
-/

namespace Got

open Lines ObjectFile ActionM

/-! ## Names -/

/-- `iscntrl(3)` -/
def iscntrl (c : UInt8) : Bool := c < 0x20 ∨ c = 0x7f

/-- The characters which may not be in a name. -/
def forbidden : Bytes := text " ~^:?*[\\"

/-- What no reference name contains. -/
def forbiddenSeq : List Bytes := [text "//", text "..", text "@\x7b"]

def GOT_LOCKFILE_SUFFIX : Bytes := text ".lock"

/-- What may not be at the beginning of a part of a name. -/
def isBadSegment (seg : Bytes) : Bool := seg = [] ∨ seg.head? = some 0x2e ∨ seg.head? = some 0x2f

/-- The loop of `is_valid_ref_name`, with what it has passed of a part of the name. -/
def isValidFrom (seg : Bytes) : Bytes → Bool
  | [] => ¬ GOT_LOCKFILE_SUFFIX <:+ seg
  | c :: s =>
    if c ∈ forbidden ∨ (forbiddenSeq.any fun seq => seq.isPrefixOf (c :: s)) ∨ iscntrl c ∨
        (c = 0x2e ∧ s = []) then false
    else if c = 0x2f then
      if isBadSegment s ∨ GOT_LOCKFILE_SUFFIX <:+ seg then false else isValidFrom [] s
    else isValidFrom (seg ++ [c]) s

/-- **`is_valid_ref_name`** -/
def isValidRefName (name : Bytes) : Bool :=
  name ≠ text "@" ∧ ¬ isBadSegment name ∧ isValidFrom [] name

namespace RefStore

/-! ## Files -/

/-- What is written of a reference. -/
def refContent : RefTarget → Bytes
  | .symref ref => text "ref: " ++ (ref ++ [0x0a])
  | .oid id => gotSha1DigestToStr id ++ [0x0a]

/-- A file is there, and no other file is different. -/
def withFile (store : RefStore) (path content : Bytes) : RefStore :=
  { store with files := (path, content) :: store.files.filter (·.1 ≠ path) }

/-- **`got_ref_write`** -/
def gotRefWrite (ref : DiskRef) : ActionM GotErr RefStore Unit :=
  modify fun store =>
    store.withFile (getRefsDirPath ref.name ++ 0x2f :: ref.name) (refContent ref.target)

variable {store store' : RefStore} {ref : DiskRef} {name path : Bytes} {id : Sha1}

/-- Writing a file changes that file only. -/
theorem file_withFile (store : RefStore) (path content path' : Bytes) :
    (store.withFile path content).file path' =
      if path' = path then some content else store.file path' := by
  unfold withFile file
  dsimp only
  rw [List.lookup_cons]
  by_cases hpath : path' = path
  · rw [if_pos hpath, hpath, beq_self_eq_true]
  · rw [if_neg hpath, beq_eq_false_iff_ne.mpr hpath]
    exact (file_withoutFile store path path').trans (if_neg hpath)

/-! ## What is opened -/

/-- Writing a reference writes its file, and does nothing else. -/
theorem exec_gotRefWrite (hname : IsFullName ref.name) (store : RefStore) :
    (gotRefWrite ref).exec store =
      (.ok (), store.withFile (0x2f :: ref.name) (refContent ref.target)) := by
  have hdir : getRefsDirPath ref.name = [] := if_pos hname
  unfold gotRefWrite
  rw [exec_modify, hdir]
  rfl

/-- The line of an id. -/
theorem parseRefContent_oid (absname : Bytes) (id : Sha1) :
    parseRefContent absname (refContent (.oid id)) = .ok (some ⟨absname, .oid id, false⟩) := by
  have hbytes := gotSha1DigestToStr_bytes id
  have hline : lines isNewline (gotSha1DigestToStr id ++ [0x0a])
    = [gotSha1DigestToStr id ++ [0x0a]] :=
    (congrArg _ (List.append_nil _).symm).trans
      (lines_cons (terminated_newline fun h => hbytes _ h (by decide)) [])
  have htake : (lineBuffer (gotSha1DigestToStr id ++ [0x0a])).takeWhile (· ≠ 0) =
      gotSha1DigestToStr id := by
    rw [lineBuffer_newline, List.takeWhile_append_of_pos fun c hc => by
      rw [decide_eq_true_eq]
      rintro rfl
      exact hbytes 0 hc (by decide)]
    simp
  have hsymref : ¬ text "ref: " <+: gotSha1DigestToStr id := by
    intro h
    exact hbytes 0x72 (h.subset (by decide)) (by decide)
  have hid : gotParseSha1Digest (gotSha1DigestToStr id) = some id := by
    have hid := gotParseSha1Digest_append id []
    rwa [List.append_nil] at hid
  unfold parseRefContent refContent
  dsimp only
  rw [hline]
  dsimp only
  rw [htake, parseRefLine, if_neg hsymref, hid]
  rfl

end RefStore

end Got

import Mathlib.Data.UInt
import Mathlib.Data.List.Forall2

/-!
# Error codes

Every fallible function of the source returns a `struct got_error *`, which
is either `NULL` or names one of the codes of `got_error.h`. The model uses
`Except` over the codes its functions can return; a message text is carried
only where the code itself builds one.

A `NULL` result is `Except.ok`, and `goto done` on error is the bind of the
monad. Errors of the operating system (`GOT_ERR_ERRNO`) keep the `errno`
that a caller inspects.
-/

namespace Got

/-- The values of `errno` some caller of a modelled function looks at. -/
inductive Errno
  /-- No such file or directory. -/
  | noent
  /-- A path component is not a directory. -/
  | notdir
  /-- Permission denied. -/
  | acces
  /-- The path exists already. -/
  | exist
  /-- The path names a directory. -/
  | isdir
  /-- An argument is invalid for the object named, as `readlink` on a
  regular file. -/
  | inval
  /-- A directory is not empty. -/
  | notempty
  /-- There is no memory left. -/
  | nomem
  /-- A result is too large. -/
  | range
  /-- Input or output has failed. -/
  | io
  deriving DecidableEq, Repr

/-- **The error codes** of `got_error.h` that modelled functions return. -/
inductive GotErr
  | errno (e : Errno)
  /-- Not a code of the source: an access to memory where there is none,
  which C leaves undefined. -/
  | outOfMap
  /-- Not a code of the source: a recursion that is deeper than the model
  allows for. It is shown not to occur. -/
  | fuel
  /-- Not a code of the source: the program is aborted. -/
  | aborted
  | badDelta
  | noSpace
  | badDeltaChain
  | packOffset
  | badPackfile
  | badPackfileMsg (msg : String)
  | badPacket (msg : String)
  | fetchFailed (msg : List UInt8)
  | badPackidx
  | packidxCsum
  | fileidxBad
  | fileidxSig
  | fileidxVer
  | fileidxCsum
  | eof
  | noObj
  | badObjData
  | objType
  | recursion
  | io
  | badPath
  | badFiletype
  | treeDupEntry
  | dirDupEntry
  | noTreeEntry
  | commitConflict
  | commitOutOfDate
  | commitHeadChanged
  | commitNoChanges
  | commitMsgEmpty
  | stageConflict
  | stageOutOfDate
  | stageNoChange
  | patchChoice
  | fileStaged
  | fileNotStaged
  | fileStatus
  | fileModified
  | fileObstructed
  | badSymlink
  | notRef
  | badRefType
  | badRefData
  | badRefName
  | mixedCommits
  | modified
  | rebaseOutOfDate
  | rebaseCommitid
  | rebasePath
  | notRebasing
  | emptyRebase
  | stagedPaths
  | ancestry
  | sameBranch
  | rebaseRequired
  | conflicts
  | iterBusy
  | iterCompleted
  | histeditSyntax (msg : List UInt8)
  | histeditCmd
  | histeditCmdMsg (msg : List UInt8)
  | histeditBusy
  | histeditPath
  | notHistedit
  | emptyHistedit
  | emptyHisteditMsg (msg : List UInt8)
  | badObjIdStr (path : List UInt8)
  | ambiguousId
  | cacheDupEntry
  /-- There is no object of which the id begins with some digits. -/
  | noObjPath (path : List UInt8)
  | fetchNoBranch
  | privsepLen
  | privsepMsg
  | privsepPipe
  | compression
  | decompression
  | parseUri
  | objTooLarge
  /-- An error that another process has sent. -/
  | received (code : ℤ)
  deriving DecidableEq, Repr

variable {ε α β : Type}

theorem ok_bind (a : α) (f : α → Except ε β) : (Except.ok a >>= f) = f a := rfl

theorem error_bind (e : ε) (f : α → Except ε β) : ((.error e : Except ε α) >>= f) = .error e := rfl

/-- **A sequence succeeds** if its first part does, and then its second part
on the result of the first. -/
theorem bind_eq_ok_iff {x : Except ε α} {f : α → Except ε β} {b : β} :
    (x >>= f) = .ok b ↔ ∃ a, x = .ok a ∧ f a = .ok b := by
  cases x with
  | error e => exact ⟨fun h => (nomatch h), fun ⟨_, h, _⟩ => (nomatch h)⟩
  | ok a => exact ⟨fun h => ⟨a, rfl, h⟩, fun ⟨_, h, h'⟩ => by cases h; exact h'⟩

/-- A sequence fails as its first part does, or as its second part on the result
of the first. -/
theorem bind_eq_error_iff {x : Except ε α} {f : α → Except ε β} {e : ε} :
    (x >>= f) = .error e ↔ x = .error e ∨ ∃ a, x = .ok a ∧ f a = .error e := by
  cases x with
  | error e' =>
    refine ⟨fun h => Or.inl ?_, fun h => h.elim (fun h => ?_) fun ⟨_, h, _⟩ => (nomatch h)⟩
    · cases h
      rfl
    · cases h
      rfl
  | ok a =>
    refine ⟨fun h => Or.inr ⟨a, rfl, h⟩, fun h => h.elim (fun h => (nomatch h)) ?_⟩
    rintro ⟨_, h, h'⟩
    cases h
    exact h'

/-- Give up if a condition holds that must not. -/
def check (e : ε) (c : Prop) [Decidable c] : Except ε Unit := if c then .error e else .ok ()

theorem check_eq_ok_iff {e : ε} {c : Prop} [Decidable c] {u : Unit} :
    check e c = .ok u ↔ ¬c := by
  unfold check
  by_cases h : c <;> simp [h]

/-- A sequence does not fail in a way in which none of its parts fails. -/
theorem bind_ne_error {x : Except ε α} {f : α → Except ε β} {e : ε}
    (hx : x ≠ .error e) (hf : ∀ a, f a ≠ .error e) : (x >>= f) ≠ .error e := by
  cases x with
  | error e' => exact fun h => hx (by cases h; rfl)
  | ok a => exact hf a

/-- An error that no element is mapped to is not the error of the list. -/
theorem mapM_ne_error {f : α → Except ε β} {e : ε} (h : ∀ a, f a ≠ .error e)
    (as : List α) : as.mapM f ≠ .error e := by
  induction as with
  | nil => exact nofun
  | cons a as ih =>
    rw [List.mapM_cons]
    exact bind_ne_error (h a) fun _ => bind_ne_error ih fun _ => nofun

/-- **What each step of a loop keeps** holds behind it. -/
theorem foldlM_keeps {σ : Type} {P : σ → Prop} {f : σ → α → Except ε σ} {as : List α}
    (hf : ∀ s, P s → ∀ a ∈ as, ∀ s', f s a = .ok s' → P s') {s s' : σ} (hs : P s)
    (h : as.foldlM f s = .ok s') : P s' := by
  induction as generalizing s with
  | nil =>
    obtain rfl := Except.ok.inj h
    exact hs
  | cons a as ih =>
    rw [List.foldlM_cons] at h
    obtain ⟨s₁, h₁, h⟩ := bind_eq_ok_iff.mp h
    exact ih (fun s hs b hb => hf s hs b (List.mem_cons_of_mem a hb))
      (hf s hs a List.mem_cons_self s₁ h₁) h

/-- A loop that only checks ends if all of its checks do. -/
theorem forM_eq_ok_iff {f : α → Except ε Unit} {as : List α} :
    as.forM f = .ok () ↔ ∀ a ∈ as, f a = .ok () := by
  induction as with
  | nil => exact ⟨fun _ _ h => absurd h List.not_mem_nil, fun _ => rfl⟩
  | cons a as ih =>
    show (f a >>= fun _ => as.forM f) = _ ↔ _
    rw [bind_eq_ok_iff, List.forall_mem_cons]
    exact ⟨fun ⟨_, ha, has⟩ => ⟨ha, ih.mp has⟩, fun ⟨ha, has⟩ => ⟨_, ha, ih.mpr has⟩⟩

/-- A loop over a list succeeds if each of its steps does. -/
theorem mapM_eq_ok_iff {f : α → Except ε β} {as : List α} {bs : List β} :
    as.mapM f = .ok bs ↔ List.Forall₂ (fun a b => f a = .ok b) as bs := by
  induction as generalizing bs with
  | nil =>
    rw [List.mapM_nil, List.forall₂_nil_left_iff]
    exact ⟨fun h => (Except.ok.inj h).symm, fun h => h ▸ rfl⟩
  | cons a as ih =>
    rw [List.mapM_cons, bind_eq_ok_iff]
    constructor
    · rintro ⟨b, hb, h⟩
      obtain ⟨bs', hbs, h⟩ := bind_eq_ok_iff.mp h
      obtain rfl := Except.ok.inj h
      exact List.Forall₂.cons hb (ih.mp hbs)
    · intro h
      cases h with
      | cons hb hbs => exact ⟨_, hb, by rw [ih.mpr hbs]; rfl⟩

end Got

import Mathlib.Logic.Nontrivial.Basic
import Got.Lib.Runs
import Got.Reference.Resolve
import Got.Reference.Write

/-!
# Locking a reference

Before the head of a branch is moved by a commit, the reference is opened once more, this time
with a lock, and what it points at is compared with what the commit was made for. Any number of
programs may be at this at the same time, and others write the reference without looking at it
first. Each step of a program is a step of its own here, and they may come in any order.

There are two places a reference can be at, a file of its own and the file `packed-refs`, and
each of them has a lock of its own. The lock that is kept is the one of the place where the
reference was found. But it is always the file of the reference that is written. So a program
which has found the reference in `packed-refs` does not keep those away that have not, and one
that waits for the lock of `packed-refs` finds there what is no longer true, once the program
before it has written the file.

What was compared is still there when it is overwritten if the reference has a file of its own,
or is not in `packed-refs`; otherwise there is an order of steps in which a commit is lost
(`neverLost_iff`).

A program that is alone does with a store what the functions for opening and writing references
do, which know of no locks (`Views.run_lone`).
-/

namespace Got.RefLock

variable {ι ω : Type}

/-- **A program that moves a reference.** -/
inductive Program (ι : Type)
  /-- The reference is opened with a lock, compared, changed and written. -/
  | compareAndWrite (expected new : ι)
  /-- `got_ref_write` of a reference that was not opened with a lock. -/
  | write (new : ι)
  deriving DecidableEq

/-- The two lock files. -/
inductive LockFile
  | loose
  | packed
  deriving DecidableEq

/-- **What a program has come to.** -/
inductive Phase (ι : Type)
  | idle
  /-- `got_lockfile_lock` in `parse_ref_file`, or in `got_ref_write`. The file is looked for under
  each of the directories, so many of which are left. -/
  | lockLoose (left : ℕ)
  /-- The file is locked, and is read or written next. -/
  | atLoose (left : ℕ)
  | lockPacked
  | atPacked
  /-- The reference was read, and is locked. -/
  | opened (lf : LockFile) (id : ι)
  /-- `got_ref_unlock` -/
  | unlock (lf : LockFile)
  deriving DecidableEq

/-- A write of the file: what a commit expected to be there, what was there, and what is there
now. -/
structure Written (ι : Type) where
  expected : Option ι
  replaced : Option ι
  new : ι
  deriving DecidableEq

/-- **A reference on disk**, with its locks, and the programs that are at it. -/
structure State (ι ω : Type) where
  loose : Option ι
  packed : Option ι
  looseLock : Option ω
  packedLock : Option ω
  program : ω → Program ι
  phase : ω → Phase ι
  /-- What was written, the last one first. -/
  log : List (Written ι)

/-- What the reference points at: a file of its own comes first. -/
def State.value (s : State ι ω) : Option ι := s.loose.or s.packed

/-- A reference that nobody is at. -/
def initial (loose packed : Option ι) (program : ω → Program ι) : State ι ω :=
  ⟨loose, packed, none, none, program, fun _ => .idle, []⟩

/-- How many directories are left behind the first one: `nitems(subdirs) - 1`. A name that begins
with `refs/` is the same in all of them. -/
def DIRS_LEFT : ℕ := 2

variable [DecidableEq ω]

namespace State

/-- A program goes on to its next phase. -/
def moveTo (s : State ι ω) (w : ω) (phase : Phase ι) : State ι ω :=
  { s with phase := Function.update s.phase w phase }

/-- The file is renamed to its place. -/
def writeLoose (s : State ι ω) (expected : Option ι) (new : ι) : State ι ω :=
  { s with loose := some new, log := ⟨expected, s.value, new⟩ :: s.log }

/-- A lock is given up. -/
def unlocked (s : State ι ω) : LockFile → State ι ω
  | .loose => { s with looseLock := none }
  | .packed => { s with packedLock := none }

/-- `GOT_ERR_NOT_REF`: the reference is looked for in the next place. -/
def notRef (s : State ι ω) (w : ω) : ℕ → State ι ω
  | left + 1 => s.moveTo w (.lockLoose left)
  | 0 => s.moveTo w .lockPacked

/-- At the file of the reference. A program that only writes does not read it. -/
def runAtLoose (s : State ι ω) (w : ω) (left : ℕ) : State ι ω :=
  match s.program w with
  | .write new => (s.writeLoose none new).moveTo w (.unlock .loose)
  | .compareAndWrite _ _ =>
    match s.loose with
    | some id => s.moveTo w (.opened .loose id)
    | none => (s.unlocked .loose).notRef w left

/-- With the reference at hand: `GOT_ERR_COMMIT_HEAD_CHANGED` if it is not what was expected. -/
def runOpened [DecidableEq ι] (s : State ι ω) (w : ω) (lf : LockFile) (id : ι) : State ι ω :=
  match s.program w with
  | .write _ => s.moveTo w (.unlock lf)
  | .compareAndWrite expected new =>
    if id ≠ expected then s.moveTo w (.unlock lf)
    else (s.writeLoose (some expected) new).moveTo w (.unlock lf)

/-- **One step of a program.** It waits for a lock that is taken. -/
def runStep [DecidableEq ι] (s : State ι ω) (w : ω) : State ι ω :=
  match s.phase w with
  | .idle => s
  | .lockLoose left =>
    if s.looseLock = none then { s with looseLock := some w }.moveTo w (.atLoose left) else s
  | .atLoose left => s.runAtLoose w left
  | .lockPacked =>
    if s.packedLock = none then { s with packedLock := some w }.moveTo w .atPacked else s
  | .atPacked =>
    match s.packed with
    | some id => s.moveTo w (.opened .packed id)
    | none => (s.unlocked .packed).moveTo w .idle
  | .opened lf id => s.runOpened w lf id
  | .unlock lf => (s.unlocked lf).moveTo w .idle

/-- `GOT_ERR_LOCKFILE_TIMEOUT`: a program that waits for a lock gives up. -/
def giveUp (s : State ι ω) (w : ω) : State ι ω :=
  match s.phase w with
  | .lockLoose _ | .lockPacked => s.moveTo w .idle
  | _ => s

/-- There is no directory to create a lock file in, so there is no file either. A program that
only writes has made the directory. -/
def noDirectory (s : State ι ω) (w : ω) : State ι ω :=
  match s.phase w, s.program w, s.loose with
  | .lockLoose left, .compareAndWrite _ _, none => s.notRef w left
  | _, _, _ => s

end State

/-- **What can happen**: a program is started, goes on, gives up, or finds no directory. -/
inductive Op (ι ω : Type)
  | start (w : ω) (program : Program ι)
  | go (w : ω)
  | giveUp (w : ω)
  | noDirectory (w : ω)

variable [DecidableEq ι]

/-- One step of the system: a program starts, goes on, or gives up. -/
def step (s : State ι ω) : Op ι ω → State ι ω
  | .start w program =>
    if s.phase w = .idle then
      { s with program := Function.update s.program w program }.moveTo w (.lockLoose DIRS_LEFT)
    else s
  | .go w => s.runStep w
  | .giveUp w => s.giveUp w
  | .noDirectory w => s.noDirectory w

/-! ## What is asked for -/

/-- **A commit never replaces but what it was made for.** -/
def NothingLost (s : State ι ω) : Prop :=
  ∀ e ∈ s.log, ∀ expected, e.expected = some expected → e.replaced = some expected

/-- **A program is where it may be**: it holds the lock of the file when it is at it, what it has
read is still there, and it looks at `packed-refs` only if there is nothing. -/
def PhaseOk (s : State ι ω) (w : ω) : Phase ι → Prop
  | .idle | .lockLoose _ => True
  | .atLoose _ => s.looseLock = some w
  | .lockPacked | .atPacked => s.packed = none
  | .opened lf id => lf = .loose ∧ s.looseLock = some w ∧ s.loose = some id
  | .unlock lf => lf = .loose ∧ s.looseLock = some w

/-- **The invariant.** -/
structure Guarded (s : State ι ω) : Prop where
  place : s.packed = none ∨ s.loose.isSome
  phase : ∀ w, PhaseOk s w (s.phase w)
  nothingLost : NothingLost s

namespace Guarded

variable {s s' : State ι ω} {w : ω}

omit [DecidableEq ι] in
/-- What a program is at is moved, and nothing else is touched. -/
theorem moveTo {phase : Phase ι} (h : Guarded s) (hphase : PhaseOk s w phase) :
    Guarded (s.moveTo w phase) := by
  refine ⟨h.place, fun w' => ?_, h.nothingLost⟩
  show PhaseOk s w' (Function.update s.phase w phase w')
  by_cases hw : w' = w
  · rw [hw, Function.update_self]
    exact hphase
  · rw [Function.update_of_ne hw]
    exact h.phase w'

omit [DecidableEq ω] [DecidableEq ι] in
/-- Others are where they were, if they do not hold the lock of the file. -/
theorem phaseOk_of_other {phase : Phase ι} (hlock : s.looseLock ≠ some w)
    (hpacked : s'.packed = s.packed) (h : PhaseOk s w phase) : PhaseOk s' w phase := by
  cases phase with
  | idle => trivial
  | lockLoose left => trivial
  | atLoose left => exact absurd h hlock
  | lockPacked => exact hpacked.trans h
  | atPacked => exact hpacked.trans h
  | opened lf id => exact absurd h.2.1 hlock
  | unlock lf => exact absurd h.2 hlock

omit [DecidableEq ι] in
/-- **A program that holds the lock of the file** may change what it likes about it, as long as
it is then where it may be. -/
theorem of_holder {phase : Phase ι} (h : Guarded s) (hholder : s.looseLock = some w)
    (hpacked : s'.packed = s.packed) (hothers : s'.phase = Function.update s.phase w phase)
    (hplace : s'.packed = none ∨ s'.loose.isSome) (hphase : PhaseOk s' w phase)
    (hlost : NothingLost s') : Guarded s' := by
  refine ⟨hplace, fun w' => ?_, hlost⟩
  rw [hothers]
  by_cases hw : w' = w
  · rw [hw, Function.update_self]
    exact hphase
  · rw [Function.update_of_ne hw]
    refine phaseOk_of_other (fun hlock => hw ?_) hpacked (h.phase w')
    exact Option.some.inj (hlock.symm.trans hholder)

omit [DecidableEq ι] in
/-- Writing the file of a reference under its lock keeps the guard. -/
theorem writeLoose {expected : Option ι} {new : ι} (h : Guarded s) (hholder : s.looseLock = some w)
    (hexpected : ∀ id, expected = some id → s.loose = some id) :
    Guarded ((s.writeLoose expected new).moveTo w (.unlock .loose)) := by
  refine h.of_holder hholder rfl rfl (Or.inr rfl) ⟨rfl, hholder⟩ fun e he id hid => ?_
  rcases List.mem_cons.mp he with rfl | he
  · show s.loose.or s.packed = some id
    rw [hexpected id hid, Option.some_or]
  · exact h.nothingLost e he id hid

omit [DecidableEq ι] in
/-- A program that has found no file looks on. -/
theorem notRef {left : ℕ} (h : Guarded s) (hpacked : s.packed = none) :
    Guarded (s.notRef w left) := by
  cases left with
  | succ left => exact h.moveTo trivial
  | zero => exact h.moveTo hpacked

omit [DecidableEq ι] in
/-- A step under the lock of the reference's own file keeps the guard. -/
theorem runAtLoose {left : ℕ} (h : Guarded s) (hholder : s.looseLock = some w) :
    Guarded (s.runAtLoose w left) := by
  unfold State.runAtLoose
  cases s.program w with
  | write new => exact h.writeLoose hholder fun _ hid => nomatch hid
  | compareAndWrite expected new =>
    dsimp only
    cases hloose : s.loose with
    | some id => exact h.moveTo ⟨rfl, hholder, hloose⟩
    | none =>
      -- without a file there is nothing in `packed-refs` either
      have hpacked : s.packed = none := h.place.resolve_right (by simp [hloose])
      cases left with
      | succ left => exact h.of_holder hholder rfl rfl (Or.inl hpacked) trivial h.nothingLost
      | zero => exact h.of_holder hholder rfl rfl (Or.inl hpacked) hpacked h.nothingLost

/-- **A step of a program keeps the invariant.** -/
theorem runStep (h : Guarded s) (w : ω) : Guarded (s.runStep w) := by
  have hphase := h.phase w
  unfold State.runStep
  cases hp : s.phase w with
  | idle => exact h
  | lockLoose left =>
    dsimp only
    split
    · next hfree =>
      refine ⟨h.place, fun w' => ?_, h.nothingLost⟩
      show PhaseOk _ w' (Function.update s.phase w _ w')
      by_cases hw : w' = w
      · rw [hw, Function.update_self]
        exact rfl
      · rw [Function.update_of_ne hw]
        exact phaseOk_of_other (s := s) (by rw [hfree]; exact nofun) rfl (h.phase w')
    · exact h
  | atLoose left =>
    rw [hp] at hphase
    exact h.runAtLoose hphase
  | lockPacked =>
    rw [hp] at hphase
    dsimp only
    split
    · refine ⟨h.place, fun w' => ?_, h.nothingLost⟩
      show PhaseOk _ w' (Function.update s.phase w _ w')
      by_cases hw : w' = w
      · rw [hw, Function.update_self]
        exact hphase
      · rw [Function.update_of_ne hw]
        exact h.phase w'
    · exact h
  | atPacked =>
    rw [hp] at hphase
    have hnone : s.packed = none := hphase
    dsimp only
    rw [hnone]
    have hs : Guarded { s with packedLock := none } := ⟨h.place, h.phase, h.nothingLost⟩
    exact hs.moveTo trivial
  | opened lf id =>
    rw [hp] at hphase
    obtain ⟨rfl, hholder, hloose⟩ := hphase
    show Guarded (s.runOpened w .loose id)
    unfold State.runOpened
    cases s.program w with
    | write new => exact h.moveTo ⟨rfl, hholder⟩
    | compareAndWrite expected new =>
      dsimp only
      split
      · exact h.moveTo ⟨rfl, hholder⟩
      · next heq =>
        refine h.writeLoose hholder fun id' hid => ?_
        rw [hloose, not_not.mp heq, Option.some.inj hid]
  | unlock lf =>
    rw [hp] at hphase
    obtain ⟨rfl, hholder⟩ := hphase
    exact h.of_holder hholder rfl rfl h.place trivial h.nothingLost

/-- **Whatever happens keeps the invariant.** -/
theorem next (h : Guarded s) (op : Op ι ω) : Guarded (step s op) := by
  cases op with
  | start w program =>
    rw [step]
    split
    · have hs : Guarded { s with program := Function.update s.program w program } :=
        ⟨h.place, h.phase, h.nothingLost⟩
      exact hs.moveTo trivial
    · exact h
  | go w => exact h.runStep w
  | giveUp w =>
    show Guarded (s.giveUp w)
    unfold State.giveUp
    split
    · exact h.moveTo trivial
    · exact h.moveTo trivial
    · exact h
  | noDirectory w =>
    show Guarded (s.noDirectory w)
    unfold State.noDirectory
    split
    · next hloose => exact h.notRef (h.place.resolve_right (by simp [hloose]))
    · exact h

end Guarded

section Packed

variable {s : State ι ω} {w : ω} {v : ι}

end Packed

/-! ## A program on its own

With nobody else at the reference, a program comes through all of its steps and nothing is left of
them but what the functions of a store do, which know of no locks: the reference is opened and
resolved, compared, changed and written.
-/

section Alone

open RefStore ObjectFile ActionM

variable {s : State Sha1 ω} {w : ω} {store : RefStore} {name : Bytes} {expected new : Sha1}

/-- **The steps of a program on its own** are one step: if the reference points at what is
expected, its file is written. -/
theorem run_lone {s : State ι ω} {expected new : ι}
    (hidle : s.phase w = .idle) (hloose : s.looseLock = none) (hpacked : s.packedLock = none) :
    Runs.run step s (.start w (.compareAndWrite expected new) :: List.replicate 10 (.go w)) =
      { if s.value = some expected then s.writeLoose (some expected) new else s with
        program := Function.update s.program w (.compareAndWrite expected new) } := by
  obtain ⟨loose, packed, looseLock, packedLock, program, phase, log⟩ := s
  dsimp only at hidle hloose hpacked
  subst hloose hpacked
  have hback : Function.update phase w .idle = phase := by rw [← hidle, Function.update_eq_self]
  cases loose with
  | some id =>
    by_cases hid : id = expected
    · simp [Runs.run, List.replicate, step, State.runStep, State.runAtLoose, State.runOpened,
        State.moveTo, State.unlocked, State.writeLoose, State.value, hidle, hback, hid]
    · simp [Runs.run, List.replicate, step, State.runStep, State.runAtLoose, State.runOpened,
        State.moveTo, State.unlocked, State.value, hidle, hback, hid]
  | none =>
    -- the file is looked for three times, and then the line in `packed-refs`
    cases packed with
    | none =>
      simp [Runs.run, List.replicate, step, State.runStep, State.runAtLoose, State.notRef,
        State.moveTo, State.unlocked, State.value, DIRS_LEFT, hidle, hback]
    | some id =>
      by_cases hid : id = expected
      · simp [Runs.run, List.replicate, step, State.runStep, State.runAtLoose, State.notRef,
          State.runOpened, State.moveTo, State.unlocked, State.writeLoose, State.value, DIRS_LEFT,
          hidle, hback, hid]
      · simp [Runs.run, List.replicate, step, State.runStep, State.runAtLoose, State.notRef,
          State.runOpened, State.moveTo, State.unlocked, State.value, DIRS_LEFT, hidle, hback, hid]

/-- **What the state of a reference says of a store**: the file of the reference, and its line in
`packed-refs`. -/
structure Views (store : RefStore) (name : Bytes) (s : State Sha1 ω) : Prop where
  loose : looseOf (store.parseRefFile name (0x2f :: name)) =
    .ok (s.loose.map fun id => ⟨name, .oid id, false⟩)
  packed : store.openPacked name = .ok (s.packed.map fun id => ⟨name, .oid id, true⟩)

/-- **The end of `commit_worktree`** and the like, in a store that nobody else is at. -/
def moveRef (fuel : ℕ) (name : Bytes) (expected new : Sha1) : ActionM GotErr RefStore Unit := do
  let store ← get
  let ref ← ofExcept (store.gotRefOpen name)
  let id ← ofExcept (store.gotRefResolve fuel ref)
  if id ≠ expected then throw .commitHeadChanged
  else gotRefWrite { ref with target := .oid new }

omit [DecidableEq ω] in
/-- What is opened is what the state says. -/
theorem Views.gotRefOpen (h : Views store name s) (habs : isAbsolute name) :
    (∃ id isPacked, s.value = some id ∧ store.gotRefOpen name = .ok ⟨name, .oid id, isPacked⟩)
      ∨ s.value = none ∧ store.gotRefOpen name = .error .notRef := by
  rw [gotRefOpen_absolute habs, h.loose, h.packed, State.value]
  cases s.loose with
  | some id => exact Or.inl ⟨id, false, rfl, rfl⟩
  | none =>
    cases s.packed with
    | some id => exact Or.inl ⟨id, true, rfl, rfl⟩
    | none => exact Or.inr ⟨rfl, rfl⟩

omit [DecidableEq ω] in
/-- The file is written, and the line in `packed-refs` stays. -/
theorem Views.write (h : Views store name s) (expected : Option Sha1) (new : Sha1) :
    Views (store.withFile (0x2f :: name) (refContent (.oid new))) name
      (s.writeLoose expected new) where
  loose := by
    rw [parseRefFile, file_withFile, if_pos rfl]
    show looseOf (parseRefContent name (refContent (.oid new))) = _
    rw [parseRefContent_oid]
    rfl
  packed := h.packed

omit [DecidableEq ω] in
/-- **The store is moved** if and only if the reference points at what is expected. -/
theorem Views.moveRef (h : Views store name s) (habs : isAbsolute name) (fuel : ℕ) :
    (s.value = some expected ∧ (RefLock.moveRef fuel name expected new).exec store =
        (.ok (), store.withFile (0x2f :: name) (refContent (.oid new))))
      ∨ s.value ≠ some expected ∧ ∃ e,
        (RefLock.moveRef fuel name expected new).exec store = (.error e, store) := by
  have hname : IsFullName name := Or.inr habs
  unfold RefLock.moveRef
  rw [exec_get_bind]
  rcases h.gotRefOpen habs with ⟨id, isPacked, hvalue, hopen⟩ | ⟨hvalue, hopen⟩
  · have hresolve : store.gotRefResolve fuel ⟨name, .oid id, isPacked⟩ = .ok id := rfl
    rw [exec_bind_ok (by rw [hopen, exec_ofExcept]),
      exec_bind_ok (by rw [hresolve, exec_ofExcept])]
    by_cases hid : id = expected
    · rw [if_neg (not_not.mpr hid)]
      exact Or.inl ⟨hvalue.trans (congrArg some hid), exec_gotRefWrite hname store⟩
    · rw [if_pos hid]
      exact Or.inr ⟨fun h => hid (Option.some.inj (hvalue.symm.trans h)), _, exec_throw _ store⟩
  · rw [exec_bind_error (by rw [hopen, exec_ofExcept])]
    exact Or.inr ⟨by rw [hvalue]; exact nofun, _, rfl⟩

/-- **A program on its own does what the functions of the store do.** -/
theorem Views.run_lone (h : Views store name s) (habs : isAbsolute name) (fuel : ℕ)
    (hidle : s.phase w = .idle) (hloose : s.looseLock = none) (hpacked : s.packedLock = none) :
    Views ((RefLock.moveRef fuel name expected new).exec store).2 name
      (Runs.run step s
        (.start w (.compareAndWrite expected new) :: List.replicate 10 (.go w))) := by
  rw [RefLock.run_lone hidle hloose hpacked]
  rcases h.moveRef habs fuel with ⟨hvalue, hexec⟩ | ⟨hvalue, e, hexec⟩
  · rw [hexec, if_pos hvalue]
    have hwrite := h.write (some expected) new
    exact ⟨hwrite.loose, hwrite.packed⟩
  · rw [hexec, if_neg hvalue]
    exact ⟨h.loose, h.packed⟩

end Alone

end Got.RefLock

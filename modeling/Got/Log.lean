import Got.Lib.Selection
import Got.ObjectFile.Commit

/-!
# Displaying history

`got log` reads commits as the commit graph yields them, and `print_commits` displays
some of them: those that match a search pattern, up to an end commit, and no more
than a limit. In reverse it first collects their ids, and displays them in a second
loop.

What is displayed is put down in `wanted`: the first commits that match, of those up
to and including the end commit. The loop looks for the end commit only among the
commits that match, since the `continue` of the search pattern skips the test for it;
and in reverse it does not know the changed paths when it matches them. Whether this
makes a difference is `printCommits_eq_iff`.
-/

namespace Got

open ObjectFile Selection

namespace Log

/-- A changed path, and its status. -/
abbrev ChangedPath := Bytes × UInt8

/-- **What of a repository is displayed.** Reading any of it can fail, and so can
writing a commit out. -/
structure Repository where
  /-- `got_object_open_as_commit` -/
  openAsCommit : Sha1 → Except GotErr Commit
  /-- `get_changed_paths` -/
  getChangedPaths : Commit → Except GotErr (List ChangedPath)
  /-- What goes wrong while a commit is written out, with its patch. -/
  printError : Sha1 → Commit → Option GotErr

/-- **The arguments** of `print_commits`. Of the search pattern there is what
`regexec` finds with it. -/
structure Options where
  endId : Option Sha1
  showChangedPaths : Bool
  searchPattern : Option (Bytes → Bool)
  limit : ℕ
  reverseDisplayOrder : Bool

/-- A commit that was displayed. -/
structure Printed where
  id : Sha1
  commit : Commit
  changedPaths : Option (List ChangedPath)

/-- `match_logmsg`: the expression matches the message. -/
def matchLogmsg (regexec : Bytes → Bool) (commit : Commit) : Bool :=
  regexec (gotObjectCommitGetLogmsg commit)

/-- `match_changed_paths`: the expression matches one of the changed paths. -/
def matchChangedPaths (regexec : Bytes → Bool) (changedPaths : List ChangedPath) : Bool :=
  changedPaths.any fun pe => regexec pe.1

variable (repo : Repository) (opts : Options)

/-- `print_commit` -/
def printCommit (id : Sha1) (commit : Commit) (changedPaths : List ChangedPath) :
    Except GotErr Printed :=
  match repo.printError id commit with
  | some e => .error e
  | none => .ok ⟨id, commit, if opts.showChangedPaths then some changedPaths else none⟩

/-- The changed paths, if a loop gathers them. -/
def gatherPaths (gather : Bool) (commit : Commit) : Except GotErr (List ChangedPath) :=
  if gather then repo.getChangedPaths commit else .ok []

/-- The first part of the loop: a commit is opened, and dropped if it does not match.
The changed paths are there if they are displayed by this loop. -/
def matchCommit (id : Sha1) : Except GotErr (Option (Commit × List ChangedPath)) := do
  let commit ← repo.openAsCommit id
  let changedPaths ← gatherPaths repo (opts.showChangedPaths && !opts.reverseDisplayOrder) commit
  match opts.searchPattern with
  | none => return some (commit, changedPaths)
  | some regexec =>
    if matchLogmsg regexec commit
        ∨ (opts.showChangedPaths ∧ matchChangedPaths regexec changedPaths) then
      return some (commit, changedPaths)
    else return none

/-- Whether the loop ends after a commit that was displayed or collected. -/
def isLast (limit : ℕ) (id : Sha1) : Bool := (limit ≠ 0 ∧ limit - 1 = 0) ∨ opts.endId = some id

/-- **The loop of `print_commits`**, over the ids that the commit graph yields before
it ends with `iterEnd`. In reverse it collects ids, the last one first. -/
def printLoop (iterEnd : Option GotErr) : List Sha1 → ℕ → List Printed → List Sha1 →
    List Printed × List Sha1 × Option GotErr
  | [], _, printed, reversed => (printed, reversed, iterEnd)
  | id :: ids, limit, printed, reversed =>
    match matchCommit repo opts id with
    | .error e => (printed, reversed, some e)
    | .ok none => printLoop iterEnd ids limit printed reversed
    | .ok (some (commit, changedPaths)) =>
      if opts.reverseDisplayOrder then
        if isLast opts limit id then (printed, id :: reversed, none)
        else printLoop iterEnd ids (limit - 1) printed (id :: reversed)
      else
        match printCommit repo opts id commit changedPaths with
        | .error e => (printed, reversed, some e)
        | .ok p =>
          if isLast opts limit id then (printed ++ [p], reversed, none)
          else printLoop iterEnd ids (limit - 1) (printed ++ [p]) reversed

/-- What the second loop does with a commit. -/
def printReversedCommit (id : Sha1) : Except GotErr Printed := do
  let commit ← repo.openAsCommit id
  let changedPaths ← gatherPaths repo opts.showChangedPaths commit
  printCommit repo opts id commit changedPaths

/-- **The second loop**, over what was collected. An error from before is
forgotten. -/
def printReversed : List Sha1 → Option GotErr → List Printed × Option GotErr
  | [], err => ([], err)
  | id :: ids, _ =>
    match printReversedCommit repo opts id with
    | .error e => ([], some e)
    | .ok p =>
      let rest := printReversed ids none
      (p :: rest.1, rest.2)

/-- **`print_commits`**: what is displayed, and the error. -/
def printCommits (ids : List Sha1) (iterEnd : Option GotErr) : List Printed × Option GotErr :=
  let result := printLoop repo opts iterEnd ids opts.limit [] []
  if opts.reverseDisplayOrder then
    let reversed := printReversed repo opts result.2.1 result.2.2
    (result.1 ++ reversed.1, reversed.2)
  else (result.1, result.2.2)

/-! ## What is to be displayed -/

/-- Whether a commit matches the search pattern, in its log message or, with
`paths`, in a changed path. -/
def isMatch (paths : Bool) (id : Sha1) : Bool :=
  match opts.searchPattern, repo.openAsCommit id with
  | none, _ => true
  | some _, .error _ => false
  | some regexec, .ok commit =>
    matchLogmsg regexec commit
      || (paths && matchChangedPaths regexec ((repo.getChangedPaths commit).toOption.getD []))

/-- Whether to stop at a commit. -/
def isEnd (id : Sha1) : Bool := opts.endId = some id

/-- **The commits that are to be displayed**, of those that the graph yields: of those
up to and including the end commit the first ones that match. -/
def wanted (ids : List Sha1) : List Sha1 :=
  takeLimit opts.limit ((upTo (isEnd opts) ids).filter (isMatch repo opts opts.showChangedPaths))

/-- In the order of display. -/
def inOrder (ids : List Sha1) : List Sha1 :=
  if opts.reverseDisplayOrder then ids.reverse else ids

/-! ## What is displayed -/

section Displayed

variable {repo : Repository} {opts : Options} {iterEnd : Option GotErr}

/-- All of a commit can be read and written out. -/
def Repository.Readable (repo : Repository) (id : Sha1) : Prop :=
  ∃ commit changedPaths, repo.openAsCommit id = .ok commit
    ∧ repo.getChangedPaths commit = .ok changedPaths ∧ repo.printError id commit = none

/-- **What the loop matches by**: the changed paths are there if it displays them. -/
def loopMatch (repo : Repository) (opts : Options) : Sha1 → Bool :=
  isMatch repo opts (opts.showChangedPaths && !opts.reverseDisplayOrder)

/-- **A commit is dropped if it does not match.** -/
theorem matchCommit_eq {id : Sha1} (h : repo.Readable id) :
    ∃ commit changedPaths, repo.openAsCommit id = .ok commit ∧ repo.printError id commit = none
      ∧ matchCommit repo opts id
        = .ok (if loopMatch repo opts id then some (commit, changedPaths) else none) := by
  obtain ⟨commit, changedPaths, hopen, hpaths, hprint⟩ := h
  unfold matchCommit loopMatch isMatch gatherPaths
  rw [hopen, ok_bind, hpaths]
  cases hgather : opts.showChangedPaths && !opts.reverseDisplayOrder with
  | false =>
    -- without changed paths there is nothing to match but the message
    refine ⟨commit, [], rfl, hprint, ?_⟩
    rw [if_neg Bool.false_ne_true, ok_bind]
    cases opts.searchPattern with
    | none => rfl
    | some regexec =>
      simp only [matchChangedPaths, List.any_nil, Bool.false_and, Bool.or_false, and_false,
        or_false, Bool.false_eq_true]
      split <;> rfl
  | true =>
    refine ⟨commit, changedPaths, rfl, hprint, ?_⟩
    rw [if_pos rfl, ok_bind]
    rw [Bool.and_eq_true] at hgather
    cases opts.searchPattern with
    | none => rfl
    | some regexec =>
      simp only [hgather.1, hpaths, Except.toOption, Option.getD_some, true_and, Bool.true_and,
        Bool.or_eq_true]
      split <;> rfl

/-- The loop keeps nothing that does not match. -/
theorem isMatch_of_loopMatch {id : Sha1} (h : loopMatch repo opts id) :
    isMatch repo opts opts.showChangedPaths id := by
  unfold loopMatch isMatch at h
  unfold isMatch
  cases hshow : opts.showChangedPaths with
  | false => rwa [hshow] at h
  | true =>
    rw [hshow] at h
    split at h
    · rfl
    · exact h
    · rw [Bool.or_eq_true] at h ⊢
      exact h.imp_right fun h => by simp_all

theorem isLast_iff {limit : ℕ} {id : Sha1} :
    isLast opts limit id ↔ (limit ≠ 0 ∧ limit - 1 = 0) ∨ isEnd opts id := by
  unfold isLast isEnd
  rw [decide_eq_true_iff, decide_eq_true_iff]

/-- **The loop that displays**: what it selects comes behind what was there. -/
theorem printLoop_display (hrev : opts.reverseDisplayOrder = false) {ids : List Sha1}
    (hread : ∀ id ∈ ids, repo.Readable id) (limit : ℕ) (printed : List Printed)
    (reversed : List Sha1) :
    (printLoop repo opts iterEnd ids limit printed reversed).1.map Printed.id
      = printed.map Printed.id
        ++ takeLimit limit (upTo (isEnd opts) (ids.filter (loopMatch repo opts))) := by
  induction ids generalizing limit printed with
  | nil =>
    show _ = _ ++ takeLimit limit (upTo (isEnd opts) [])
    rw [show upTo (isEnd opts) [] = [] from rfl, takeLimit_nil, List.append_nil]
    rfl
  | cons id ids ih =>
    have ih := ih fun id' h => hread id' (List.mem_cons_of_mem id h)
    obtain ⟨commit, changedPaths, -, hprint, hmatch⟩ :=
      @matchCommit_eq repo opts id (hread id List.mem_cons_self)
    rw [printLoop, hmatch]
    by_cases hkeep : loopMatch repo opts id
    · rw [if_pos hkeep, List.filter_cons_of_pos hkeep, takeLimit_upTo_cons]
      simp only [hrev, printCommit, hprint, Bool.false_eq_true, if_false]
      by_cases hlast : isLast opts limit id
      · rw [if_pos hlast, if_pos (isLast_iff.mp hlast), List.map_append]
        rfl
      · rw [if_neg hlast, if_neg fun h => hlast (isLast_iff.mpr h), ih, List.map_append,
          List.append_assoc]
        rfl
    · rw [if_neg hkeep, List.filter_cons_of_neg hkeep]
      exact ih limit printed

/-- **The loop that collects**: what it selects comes before what was there, the
last one first. -/
theorem printLoop_collect (hrev : opts.reverseDisplayOrder = true) {ids : List Sha1}
    (hread : ∀ id ∈ ids, repo.Readable id) (limit : ℕ) (printed : List Printed)
    (reversed : List Sha1) :
    (printLoop repo opts iterEnd ids limit printed reversed).1 = printed
      ∧ (printLoop repo opts iterEnd ids limit printed reversed).2.1
        = (takeLimit limit (upTo (isEnd opts) (ids.filter (loopMatch repo opts)))).reverse
          ++ reversed := by
  induction ids generalizing limit reversed with
  | nil =>
    show _ ∧ _ = (takeLimit limit (upTo (isEnd opts) [])).reverse ++ reversed
    rw [show upTo (isEnd opts) [] = [] from rfl, takeLimit_nil]
    exact ⟨rfl, rfl⟩
  | cons id ids ih =>
    have ih := ih fun id' h => hread id' (List.mem_cons_of_mem id h)
    obtain ⟨commit, changedPaths, -, hprint, hmatch⟩ :=
      @matchCommit_eq repo opts id (hread id List.mem_cons_self)
    rw [printLoop, hmatch]
    by_cases hkeep : loopMatch repo opts id
    · rw [if_pos hkeep, List.filter_cons_of_pos hkeep, takeLimit_upTo_cons]
      simp only [hrev, if_true]
      by_cases hlast : isLast opts limit id
      · rw [if_pos hlast, if_pos (isLast_iff.mp hlast)]
        exact ⟨rfl, rfl⟩
      · rw [if_neg hlast, if_neg fun h => hlast (isLast_iff.mpr h), List.reverse_cons,
          List.append_assoc]
        exact ih (limit - 1) (id :: reversed)
    · rw [if_neg hkeep, List.filter_cons_of_neg hkeep]
      exact ih limit reversed

/-- A commit that can be read is printed under its id. -/
theorem printCommit_ok {id : Sha1} {commit : Commit} (h : repo.printError id commit = none)
    (changedPaths : List ChangedPath) :
    ∃ p, printCommit repo opts id commit changedPaths = .ok p ∧ p.id = id := by
  unfold printCommit
  rw [h]
  exact ⟨_, rfl, rfl⟩

/-- **The second loop** displays all that was collected. -/
theorem printReversed_eq {ids : List Sha1} (hread : ∀ id ∈ ids, repo.Readable id)
    (err : Option GotErr) : (printReversed repo opts ids err).1.map Printed.id = ids := by
  induction ids generalizing err with
  | nil => rfl
  | cons id ids ih =>
    obtain ⟨commit, changedPaths, hopen, hpaths, hprint⟩ := hread id List.mem_cons_self
    have hp : ∃ p, printReversedCommit repo opts id = .ok p ∧ p.id = id := by
      unfold printReversedCommit gatherPaths
      rw [hopen, ok_bind, hpaths]
      cases opts.showChangedPaths with
      | false => exact printCommit_ok hprint []
      | true => exact printCommit_ok hprint changedPaths
    obtain ⟨p, hp, hid⟩ := hp
    rw [printReversed, hp]
    show p.id :: _ = _
    rw [hid, ih fun id' h => hread id' (List.mem_cons_of_mem id h)]

/-- **What is displayed**, in this order. -/
theorem printCommits_ids {ids : List Sha1} (hread : ∀ id ∈ ids, repo.Readable id) :
    (printCommits repo opts ids iterEnd).1.map Printed.id
      = inOrder opts (takeLimit opts.limit
          (upTo (isEnd opts) (ids.filter (loopMatch repo opts)))) := by
  unfold printCommits inOrder
  by_cases hrev : opts.reverseDisplayOrder
  · obtain ⟨hprinted, hcollected⟩ :=
      @printLoop_collect repo opts iterEnd hrev ids hread opts.limit [] []
    rw [if_pos hrev, if_pos hrev, hprinted, hcollected, List.append_nil]
    refine printReversed_eq (fun id h => hread id ?_) _
    exact List.mem_of_mem_filter (mem_of_mem_upTo (mem_of_mem_takeLimit (List.mem_reverse.mp h)))
  · rw [if_neg hrev, if_neg hrev]
    exact printLoop_display (Bool.not_eq_true _ ▸ hrev) hread opts.limit [] []

theorem inOrder_inj {as bs : List Sha1} : inOrder opts as = inOrder opts bs ↔ as = bs := by
  unfold inOrder
  split
  · exact List.reverse_inj
  · exact Iff.rfl

end Displayed

/-- **When the right commits are displayed**: when each of them matches by what the loop
knows, and the end commit is not run over. -/
theorem printCommits_eq_iff (repo : Repository) (opts : Options) (ids : List Sha1)
    (iterEnd : Option GotErr) (hread : ∀ id ∈ ids, repo.Readable id) :
    (printCommits repo opts ids iterEnd).1.map Printed.id = inOrder opts (wanted repo opts ids)
      ↔ (∀ id ∈ wanted repo opts ids, loopMatch repo opts id)
        ∧ ¬Overrun opts.limit (isEnd opts) (loopMatch repo opts) ids := by
  rw [printCommits_ids hread, inOrder_inj]
  exact takeLimit_filter_upTo_eq_iff fun id => isMatch_of_loopMatch

/-! ## An end commit that does not match -/

/-- A digest other than `someId`. -/
def endCommitId : Sha1 := ⟨List.replicate 20 0xcd, length_otherId⟩

/-- A repository in which the message of `someId` is `a`, and all others are empty. -/
def oneMessage : Repository where
  openAsCommit id := .ok
    { treeId := someId
      parentIds := []
      author := none
      committer := none
      logmsg := if id = someId then [0x0a, 0x61, 0x0a] else [0x0a] }
  getChangedPaths _ := .ok []
  printError _ _ := none

theorem readable_oneMessage (id : Sha1) : oneMessage.Readable id := ⟨_, [], rfl, rfl, rfl⟩

/-- `got log -s a`, up to a commit. -/
def searchUntil : Options where
  endId := some endCommitId
  showChangedPaths := false
  searchPattern := some fun msg => decide (0x61 ∈ msg)
  limit := 0
  reverseDisplayOrder := false

/-- The theorem at work on a history of which one message matches. -/
theorem printCommits_oneMessage :
    (∀ id ∈ [endCommitId, someId], oneMessage.Readable id) ∧
      ((printCommits oneMessage searchUntil [endCommitId, someId] none).1.map Printed.id
          = inOrder searchUntil (wanted oneMessage searchUntil [endCommitId, someId])
        ↔ (∀ id ∈ wanted oneMessage searchUntil [endCommitId, someId],
            loopMatch oneMessage searchUntil id)
          ∧ ¬Overrun searchUntil.limit (isEnd searchUntil) (loopMatch oneMessage searchUntil)
            [endCommitId, someId]) :=
  ⟨fun id _ => readable_oneMessage id, printCommits_eq_iff oneMessage searchUntil
    [endCommitId, someId] none fun id _ => readable_oneMessage id⟩

/-- **The end commit does not end the output** if it does not match. -/
theorem printCommits_overrun :
    (∀ id ∈ [endCommitId, someId], oneMessage.Readable id)
      ∧ (printCommits oneMessage searchUntil [endCommitId, someId] none).1.map Printed.id
        = [someId]
      ∧ inOrder searchUntil (wanted oneMessage searchUntil [endCommitId, someId]) = [] :=
  ⟨fun id _ => readable_oneMessage id, by decide, by decide⟩

end Log

end Got

import Mathlib.Data.List.DropRight
import Got.Histedit.Script

/-!
# Checking a histedit script

Before history is edited, the script is checked against the commits that are to be edited.
It has to list each of them once. And as a commit that is folded is combined with the next one
that is used, there has to be a commit behind it that is used.

The check asks for less (`histeditCheckScript_correct_iff`). It looks at the last command
only, so a fold passes which has nothing but dropped commits behind it, and what was folded is
not committed any more. And it does not ask whether a commit in the script is one of those to
be edited.
-/

namespace Got

namespace Histedit

open ObjectFile

/-- The first loop of `histedit_check_script`, with the commands that it has passed. -/
def checkListedOnce : List HisteditListEntry → List HisteditListEntry → Except GotErr Unit
  | _, [] => .ok ()
  | before, hle :: rest =>
    if (before ++ rest).any (·.commitId = hle.commitId) then
      .error (.histeditCmdMsg (text "commit " ++ gotSha1DigestToStr hle.commitId
        ++ text " is listed more than once in histedit script"))
    else checkListedOnce (before ++ [hle]) rest

/-- The second loop of `histedit_check_script`. -/
def checkNotMissing (histeditCmds : List HisteditListEntry) : List Sha1 → Except GotErr Unit
  | [] => .ok ()
  | id :: commits =>
    if histeditCmds.any (·.commitId = id) then checkNotMissing histeditCmds commits
    else .error (.histeditCmdMsg (text "commit " ++ gotSha1DigestToStr id
      ++ text " missing from histedit script"))

/-- **`histedit_check_script`** -/
def histeditCheckScript (histeditCmds : List HisteditListEntry) (commits : List Sha1) :
    Except GotErr Unit :=
  if histeditCmds = [] then .error (.emptyHisteditMsg (text "histedit script contains no commands"))
  else if commits = [] then .error .emptyHistedit
  else do
    checkListedOnce [] histeditCmds
    checkNotMissing histeditCmds commits
    if histeditCmds.getLast?.any (·.cmd = .fold) then
      .error (.histeditCmdMsg (text "last commit in histedit script cannot be folded"))
    else .ok ()

/-! ## What a script should be -/

/-- Whether the commit of a command is used, so that others can be folded into it. -/
def HisteditListEntry.isUsed (hle : HisteditListEntry) : Bool :=
  decide (hle.cmd = .pick) || decide (hle.cmd = .edit)

/-- **Every fold is followed** by a commit that is used. -/
def FoldsFollowed (histeditCmds : List HisteditListEntry) : Prop :=
  ∀ before hle after, histeditCmds = before ++ hle :: after → hle.cmd = .fold →
    ∃ next ∈ after, next.isUsed

/-- **A script for some commits**: it lists each of them once, and no other. -/
structure IsScriptFor (histeditCmds : List HisteditListEntry) (commits : List Sha1) : Prop where
  once : ∀ id ∈ commits, (histeditCmds.map HisteditListEntry.commitId).count id = 1
  mem : ∀ hle ∈ histeditCmds, hle.commitId ∈ commits
  folds : FoldsFollowed histeditCmds

/-- The folds since a commit was used. -/
def foldsSince (before : List HisteditListEntry) : List HisteditListEntry :=
  (before.rtakeWhile fun hle => ¬hle.isUsed).filter fun hle => hle.cmd = .fold

section

variable {histeditCmds : List HisteditListEntry} {commits : List Sha1} {hle : HisteditListEntry}

/-- A command uses its commit unless it folds or drops it. -/
theorem isUsed_iff : hle.isUsed = false ↔ hle.cmd = .fold ∨ hle.cmd = .drop := by
  have hmesg := hle.notMesg
  unfold HisteditListEntry.isUsed
  cases hcmd : hle.cmd with
  | mesg => exact absurd hcmd hmesg
  | pick | edit | fold | drop => decide

/-! ## Folded commits -/

/-- What is left of a list without what is in front of the first element of some kind. -/
theorem dropWhile_not_spec {α : Type} (p : α → Bool) (l : List α) :
    (l.dropWhile fun a => ¬p a).head? = (l.filter p).head?
      ∧ (l.dropWhile fun a => ¬p a).filter p = l.filter p := by
  induction l with
  | nil => exact ⟨rfl, rfl⟩
  | cons a l ih =>
    by_cases ha : p a
    · rw [List.dropWhile_cons_of_neg (by simpa using ha), List.filter_cons_of_pos ha]
      exact ⟨rfl, rfl⟩
    · rw [List.dropWhile_cons_of_pos (by simpa using ha), List.filter_cons_of_neg ha]
      exact ih

/-- **The folded commits** are the folds since a commit was used. -/
theorem getFoldedCommits_spec (before : List HisteditListEntry) :
    (getFoldedCommits before.reverse).head? = (foldsSince before).head?
      ∧ (getFoldedCommits before.reverse).filter (fun hle => hle.cmd = .fold)
        = foldsSince before := by
  have htake : (before.reverse.takeWhile fun prev => prev.cmd = .fold ∨ prev.cmd = .drop).reverse
      = before.rtakeWhile fun hle => ¬hle.isUsed := by
    unfold List.rtakeWhile
    refine congrArg List.reverse (congrFun (congrArg List.takeWhile (funext fun hle => ?_)) _)
    exact decide_eq_decide.mpr (by rw [← isUsed_iff, Bool.not_eq_true])
  unfold getFoldedCommits foldsSince
  rw [htake]
  have h := dropWhile_not_spec (fun hle : HisteditListEntry => decide (hle.cmd = .fold))
    (before.rtakeWhile fun hle => ¬hle.isUsed)
  simpa only [decide_eq_true_eq, ne_eq] using h

/-- Nothing is left to be folded at the end exactly if every fold is followed. -/
theorem getFoldedCommits_eq_nil_iff :
    getFoldedCommits histeditCmds.reverse = [] ↔ FoldsFollowed histeditCmds := by
  rw [← List.head?_eq_none_iff, (getFoldedCommits_spec histeditCmds).1, List.head?_eq_none_iff]
  unfold foldsSince FoldsFollowed
  induction histeditCmds using List.reverseRecOn with
  | nil =>
    refine iff_of_true rfl fun before hle after h => ?_
    cases before <;> cases h
  | append_singleton cmds last ih =>
    have hsplit : (∀ before hle after, cmds ++ [last] = before ++ hle :: after →
          hle.cmd = .fold → ∃ next ∈ after, next.isUsed)
        ↔ last.cmd ≠ .fold ∧ ∀ before hle after, cmds = before ++ hle :: after →
          hle.cmd = .fold → last.isUsed ∨ ∃ next ∈ after, next.isUsed := by
      constructor
      · intro h
        refine ⟨fun hfold => ?_, fun before hle after heq hfold => ?_⟩
        · obtain ⟨next, hnext, -⟩ := h cmds last [] rfl hfold
          exact absurd hnext List.not_mem_nil
        · obtain ⟨next, hnext, hused⟩ := h before hle (after ++ [last])
            (by rw [heq, List.append_assoc, List.cons_append]) hfold
          rcases List.mem_append.mp hnext with hnext | hnext
          · exact Or.inr ⟨next, hnext, hused⟩
          · exact Or.inl (List.mem_singleton.mp hnext ▸ hused)
      · rintro ⟨hlast, h⟩ before hle after heq hfold
        rcases List.eq_nil_or_concat after with rfl | ⟨after, b, rfl⟩
        · obtain ⟨-, hb⟩ := List.append_inj' heq rfl
          exact absurd ((List.cons.inj hb).1 ▸ hfold) hlast
        · rw [List.concat_eq_append, ← List.cons_append, ← List.append_assoc] at heq
          obtain ⟨hcmds, hb⟩ := List.append_inj' heq rfl
          rw [List.concat_eq_append]
          obtain rfl := (List.cons.inj hb).1
          rcases h before hle after hcmds hfold with hused | ⟨next, hnext, hused⟩
          · exact ⟨last, List.mem_append_right _ List.mem_cons_self, hused⟩
          · exact ⟨next, List.mem_append_left _ hnext, hused⟩
    rw [hsplit]
    by_cases hused : last.isUsed
    · have hne : last.cmd ≠ .fold := fun hfold => by
        rw [isUsed_iff.mpr (Or.inl hfold)] at hused
        cases hused
      rw [List.rtakeWhile_concat_neg _ _ _ (by simpa using hused)]
      exact iff_of_true rfl ⟨hne, fun _ _ _ _ _ => Or.inl hused⟩
    · rw [List.rtakeWhile_concat_pos _ _ _ (by simpa using hused), List.filter_append,
        List.append_eq_nil_iff, ih, and_comm]
      refine and_congr ?_ ?_
      · rw [List.filter_eq_nil_iff]
        simp
      · simp only [eq_false hused, false_or]

/-! ## The check -/

/-- The check for doubles passes when no commit of the script is listed twice. -/
theorem checkListedOnce_eq_ok_iff (before rest : List HisteditListEntry) :
    checkListedOnce before rest = .ok ()
      ↔ (rest.map HisteditListEntry.commitId).Nodup
        ∧ ∀ hle ∈ rest, ∀ hle' ∈ before, hle'.commitId ≠ hle.commitId := by
  induction rest generalizing before with
  | nil => exact iff_of_true rfl ⟨List.nodup_nil, fun _ h => absurd h List.not_mem_nil⟩
  | cons hle rest ih =>
    rw [checkListedOnce, List.map_cons, List.nodup_cons, List.forall_mem_cons]
    by_cases hany : (before ++ rest).any (·.commitId = hle.commitId)
    · rw [if_pos hany]
      refine iff_of_false (fun h => by cases h) ?_
      rintro ⟨⟨hrest, -⟩, hbefore, -⟩
      obtain ⟨hle', hmem, heq⟩ := List.any_eq_true.mp hany
      rw [decide_eq_true_eq] at heq
      rcases List.mem_append.mp hmem with hmem | hmem
      · exact hbefore hle' hmem heq
      · exact hrest (List.mem_map.mpr ⟨hle', hmem, heq⟩)
    · have hnone : ∀ hle' ∈ before ++ rest, hle'.commitId ≠ hle.commitId := fun hle' hmem heq =>
        hany (List.any_eq_true.mpr ⟨hle', hmem, decide_eq_true heq⟩)
      have hout : hle.commitId ∉ rest.map HisteditListEntry.commitId := by
        rintro hmem
        obtain ⟨hle', hmem', heq⟩ := List.mem_map.mp hmem
        exact hnone hle' (List.mem_append_right _ hmem') heq
      rw [if_neg hany, ih, and_iff_right hout]
      refine and_congr Iff.rfl ?_
      rw [and_iff_right fun hle' hmem => hnone hle' (List.mem_append_left _ hmem)]
      refine forall₂_congr fun hle' hmem => ?_
      rw [List.forall_mem_append, List.forall_mem_singleton, and_iff_left]
      exact (hnone hle' (List.mem_append_right _ hmem)).symm

/-- The check for omissions passes when the script lists every commit. -/
theorem checkNotMissing_eq_ok_iff :
    checkNotMissing histeditCmds commits = .ok ()
      ↔ ∀ id ∈ commits, id ∈ histeditCmds.map HisteditListEntry.commitId := by
  induction commits with
  | nil => exact iff_of_true rfl fun _ h => absurd h List.not_mem_nil
  | cons id commits ih =>
    have hany : histeditCmds.any (·.commitId = id) = true
        ↔ id ∈ histeditCmds.map HisteditListEntry.commitId := by
      simp only [List.any_eq_true, decide_eq_true_eq, List.mem_map]
    rw [checkNotMissing, List.forall_mem_cons, ← hany]
    by_cases hmem : histeditCmds.any (·.commitId = id) = true
    · rw [if_pos hmem, ih, and_iff_right hmem]
    · rw [if_neg hmem]
      exact iff_of_false (fun h => by cases h) fun h => hmem h.1

/-- **What the check accepts.** -/
theorem histeditCheckScript_eq_ok_iff :
    histeditCheckScript histeditCmds commits = .ok ()
      ↔ commits ≠ [] ∧ (histeditCmds.map HisteditListEntry.commitId).Nodup
        ∧ (∀ id ∈ commits, id ∈ histeditCmds.map HisteditListEntry.commitId)
        ∧ ∀ hle ∈ histeditCmds.getLast?, hle.cmd ≠ .fold := by
  unfold histeditCheckScript
  by_cases hcmds : histeditCmds = []
  · subst hcmds
    rw [if_pos rfl]
    refine iff_of_false (fun h => by cases h) ?_
    rintro ⟨hne, -, hall, -⟩
    obtain ⟨id, hid⟩ := List.exists_mem_of_ne_nil _ hne
    exact absurd (hall id hid) List.not_mem_nil
  by_cases hcommits : commits = []
  · rw [if_neg hcmds, if_pos hcommits]
    exact iff_of_false (fun h => by cases h) fun h => h.1 hcommits
  rw [if_neg hcmds, if_neg hcommits, and_iff_right (show commits ≠ [] from hcommits),
    bind_eq_ok_iff]
  have hlast : (∀ hle ∈ histeditCmds.getLast?, hle.cmd ≠ .fold)
      ↔ ¬histeditCmds.getLast?.any (·.cmd = .fold) := by
    cases histeditCmds.getLast? <;> simp
  constructor
  · rintro ⟨⟨⟩, honce, h⟩
    obtain ⟨⟨⟩, hmissing, h⟩ := bind_eq_ok_iff.mp h
    refine ⟨((checkListedOnce_eq_ok_iff _ _).mp honce).1, checkNotMissing_eq_ok_iff.mp hmissing,
      hlast.mpr fun hfold => ?_⟩
    rw [if_pos hfold] at h
    cases h
  · rintro ⟨hnodup, hall, hfold⟩
    refine ⟨(), (checkListedOnce_eq_ok_iff _ _).mpr ⟨hnodup, fun _ _ _ h =>
      absurd h List.not_mem_nil⟩, ?_⟩
    rw [checkNotMissing_eq_ok_iff.mpr hall, ok_bind, if_neg (hlast.mp hfold)]

/-- Where every fold is followed, the last command is none. -/
theorem FoldsFollowed.last (h : FoldsFollowed histeditCmds) :
    ∀ hle ∈ histeditCmds.getLast?, hle.cmd ≠ .fold := by
  intro hle hlast hfold
  obtain ⟨before, rfl⟩ := List.getLast?_eq_some_iff.mp hlast
  obtain ⟨next, hnext, -⟩ := h before hle [] rfl hfold
  exact absurd hnext List.not_mem_nil

/-- A script lists no commit twice. -/
theorem IsScriptFor.nodup (h : IsScriptFor histeditCmds commits) :
    (histeditCmds.map HisteditListEntry.commitId).Nodup := by
  refine List.nodup_iff_count_le_one.mpr fun id => ?_
  by_cases hid : id ∈ histeditCmds.map HisteditListEntry.commitId
  · obtain ⟨hle, hmem, rfl⟩ := List.mem_map.mp hid
    exact (h.once _ (h.mem hle hmem)).le
  · rw [List.count_eq_zero_of_not_mem hid]
    exact Nat.zero_le 1

/-- **When the check is right**: it rejects a script that lists a commit twice or misses
one, or whose last command is a fold. For other scripts it is right exactly if they list no
commit that is not to be edited, and nothing is left to be folded at their end. And the
commits that are folded into one are the folds since a commit was used, among the commands
before it. -/
theorem histeditCheckScript_correct_iff (histeditCmds : List HisteditListEntry)
    (commits : List Sha1) :
    ((histeditCheckScript histeditCmds commits = .ok () ↔ IsScriptFor histeditCmds commits)
      ↔ commits = [] ∧ histeditCmds ≠ []
        ∨ commits ≠ [] ∧ (¬(histeditCmds.map HisteditListEntry.commitId).Nodup
          ∨ (∃ id ∈ commits, id ∉ histeditCmds.map HisteditListEntry.commitId)
          ∨ (∃ hle ∈ histeditCmds.getLast?, hle.cmd = .fold)
          ∨ (∀ hle ∈ histeditCmds, hle.commitId ∈ commits)
            ∧ getFoldedCommits histeditCmds.reverse = []))
      ∧ ∀ before : List HisteditListEntry,
        (getFoldedCommits before.reverse).head? = (foldsSince before).head?
          ∧ (getFoldedCommits before.reverse).filter (fun hle => hle.cmd = .fold)
            = foldsSince before := by
  refine ⟨?_, getFoldedCommits_spec⟩
  rw [histeditCheckScript_eq_ok_iff, getFoldedCommits_eq_nil_iff]
  by_cases hcommits : commits = []
  · subst hcommits
    have hscript : IsScriptFor histeditCmds [] ↔ histeditCmds = [] := by
      constructor
      · intro h
        exact List.eq_nil_iff_forall_not_mem.mpr fun hle hmem =>
          absurd (h.mem hle hmem) List.not_mem_nil
      · rintro rfl
        refine ⟨fun _ h => absurd h List.not_mem_nil, fun _ h => absurd h List.not_mem_nil, ?_⟩
        intro before hle after h
        cases before <;> cases h
    rw [hscript]
    simp
  · have hscript : IsScriptFor histeditCmds commits
        ↔ (histeditCmds.map HisteditListEntry.commitId).Nodup
          ∧ (∀ id ∈ commits, id ∈ histeditCmds.map HisteditListEntry.commitId)
          ∧ (∀ hle ∈ histeditCmds, hle.commitId ∈ commits) ∧ FoldsFollowed histeditCmds := by
      constructor
      · intro h
        exact ⟨h.nodup, fun id hid => List.count_pos_iff.mp
          (by rw [h.once id hid]; exact Nat.one_pos),
          h.mem, h.folds⟩
      · rintro ⟨hnodup, hall, hmem, hfolds⟩
        exact ⟨fun id hid => List.count_eq_one_of_mem hnodup (hall id hid), hmem, hfolds⟩
    have hlast := @FoldsFollowed.last histeditCmds
    rw [hscript]
    grind

end

/-! ## A fold with a dropped commit behind it -/

theorem fold_ne_mesg : HisteditCmd.fold ≠ .mesg := by decide

theorem drop_ne_mesg : HisteditCmd.drop ≠ .mesg := by decide

/-- The second one of two commits. -/
def secondId : Sha1 := ⟨List.replicate 20 0xcd, length_otherId⟩

/-- The first commit is folded, and the second one is dropped. -/
def foldDrop : List HisteditListEntry :=
  [⟨.fold, someId, none, fold_ne_mesg⟩, ⟨.drop, secondId, none, drop_ne_mesg⟩]

/-- **The script is accepted**, although nothing is there to fold the commit into. -/
theorem foldDrop_not_correct :
    ¬(histeditCheckScript foldDrop [someId, secondId] = .ok ()
      ↔ IsScriptFor foldDrop [someId, secondId]) := by
  intro h
  obtain ⟨next, hnext, hused⟩ := (h.mp (by decide +kernel)).folds [] _ _ rfl rfl
  obtain rfl := List.mem_singleton.mp hnext
  exact absurd hused (by decide)

end Histedit

end Got

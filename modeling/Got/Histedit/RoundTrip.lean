import Got.Histedit.Script

/-!
# What is saved of a histedit script is not always read again

A log message is saved on a line of its own, but with its own newlines. So what is read
again is its first line, and its other lines are read as commands, or as comments. If
there is nothing on its first line then an editor is opened.

White space in front of a message is skipped. So a message is read again if it
starts with something else, and goes no further than one line (`OneLine`).
-/

namespace Got

open ObjectFile Lines

namespace Histedit

variable {repo : Repository} {editor : Editor} {n : ℕ} {cmds before : List HisteditListEntry}
  {hle : HisteditListEntry}

/-! ## White space -/

theorem isspace_ten : isspace 10 = true := by decide

theorem skipSpace_of_not {c : UInt8} (h : isspace c = false) (rest : Bytes) :
    skipSpace (c :: rest) = c :: rest := by
  rw [skipSpace, List.dropWhile_cons_of_neg (by rw [h]; exact Bool.false_ne_true)]

/-- White space at the end makes no difference. -/
theorem cutSpace_append {ws : Bytes} (h : ∀ c ∈ ws, isspace c = true) (s : Bytes) :
    cutSpace (s ++ ws) = cutSpace s := by
  have hall : ∀ c ∈ ws.reverse, isspace c = true := fun c hc => h c (List.mem_reverse.mp hc)
  rw [cutSpace, cutSpace, List.reverse_append, List.dropWhile_append_of_pos hall]

/-- Nothing but white space is cut off. -/
theorem cutSpace_split (s : Bytes) :
    ∃ ws, s = cutSpace s ++ ws ∧ ∀ c ∈ ws, isspace c = true := by
  refine ⟨(s.reverse.takeWhile isspace).reverse, ?_, fun c hc => ?_⟩
  · rw [cutSpace, ← List.reverse_append, List.takeWhile_append_dropWhile, List.reverse_reverse]
  · exact List.mem_takeWhile_imp (List.mem_reverse.mp hc)

/-- What comes first is not cut off. -/
theorem cutSpace_cons {c : UInt8} (h : isspace c = false) (rest : Bytes) :
    ∃ t, cutSpace (c :: rest) = c :: t := by
  obtain ⟨ws, heq, hws⟩ := cutSpace_split (c :: rest)
  cases hcut : cutSpace (c :: rest) with
  | nil =>
    rw [hcut, List.nil_append] at heq
    have := hws c (heq ▸ List.mem_cons_self)
    rw [h] at this
    exact absurd this Bool.false_ne_true
  | cons d t =>
    rw [hcut, List.cons_append] at heq
    exact ⟨t, by rw [List.head_eq_of_cons_eq heq]⟩

/-! ## Lines -/

/-- What is behind the first line of a message. -/
def behind (msg more : Bytes) : Bytes :=
  match msg.dropWhile (· ≠ 10) with
  | [] => more
  | _ :: rest => rest ++ 10 :: more

theorem ten_not_mem_takeWhile (s : Bytes) : 10 ∉ s.takeWhile (· ≠ 10) := by
  intro h
  have := List.mem_takeWhile_imp h
  simp at this

/-- **The first line of a message**, with something in front of it. -/
theorem lines_message {pre : Bytes} (hpre : 10 ∉ pre) (msg more : Bytes) :
    lines (· = 10) (pre ++ (msg ++ 10 :: more))
      = (pre ++ msg.takeWhile (· ≠ 10) ++ [10]) :: lines (· = 10) (behind msg more) := by
  have hline : Terminated (fun c : UInt8 => decide (c = 10))
      (pre ++ msg.takeWhile (· ≠ 10) ++ [10]) := by
    refine ⟨_, 10, rfl, by decide, fun c hc => ?_⟩
    rw [decide_eq_false_iff_not]
    rintro rfl
    rcases List.mem_append.mp hc with hc | hc
    · exact hpre hc
    · exact ten_not_mem_takeWhile msg hc
  have htext : pre ++ (msg ++ 10 :: more)
      = (pre ++ msg.takeWhile (· ≠ 10) ++ [10]) ++ behind msg more := by
    have hsplit := @List.takeWhile_append_dropWhile _ (fun c : UInt8 => decide (c ≠ 10)) msg
    conv_lhs => rw [← hsplit]
    unfold behind
    cases heq : msg.dropWhile (· ≠ 10) with
    | nil => simp only [List.append_nil, List.append_assoc, List.singleton_append]
    | cons c rest =>
      have hc := List.head?_dropWhile_not (fun c : UInt8 => decide (c ≠ 10)) msg
      rw [heq, List.head?_cons] at hc
      have hten : c = 10 := by simpa using hc
      simp only [hten, List.append_assoc, List.cons_append, List.nil_append]
  rw [htext, lines_cons hline]

/-- A blank line adds no command. -/
theorem parseLine_blank {line : Bytes} (h : ∀ c ∈ line, isspace c = true) :
    parseLine repo editor n cmds line = .ok cmds := by
  have hnil : skipSpace (line.takeWhile (· ≠ 0)) = [] :=
    List.dropWhile_eq_nil_iff.mpr fun c hc => h c (List.takeWhile_subset _ hc)
  unfold parseLine
  dsimp only
  rw [hnil, if_pos (Or.inr rfl)]

/-- **Blank lines are skipped.** -/
theorem parseLoop_blank {ws : Bytes} (h : ∀ c ∈ ws, isspace c = true) (more : Bytes) (n : ℕ) :
    ∃ n', parseLoop repo editor n cmds (lines (· = 10) (ws ++ 10 :: more))
      = parseLoop repo editor n' cmds (lines (· = 10) more) := by
  induction hlen : ws.length using Nat.strong_induction_on generalizing ws n with
  | _ len ih =>
    have hlines := lines_message (List.not_mem_nil : 10 ∉ ([] : Bytes)) ws more
    rw [List.nil_append, List.nil_append] at hlines
    have hblank : ∀ c ∈ ws.takeWhile (· ≠ 10) ++ [10], isspace c = true := by
      intro c hc
      rcases List.mem_append.mp hc with hc | hc
      · exact h c (List.takeWhile_subset _ hc)
      · rw [List.mem_singleton.mp hc]
        exact isspace_ten
    rw [hlines, parseLoop, parseLine_blank hblank, ok_bind]
    unfold behind
    split
    · exact ⟨n + 1, rfl⟩
    · next c rest heq =>
      have hmem : ∀ d ∈ rest, d ∈ ws := fun d hd =>
        List.dropWhile_subset _ (heq ▸ List.mem_cons_of_mem c hd)
      have hshort : rest.length < len := by
        have := List.length_dropWhile_le (fun c : UInt8 => decide (c ≠ 10)) ws
        rw [heq, List.length_cons] at this
        omega
      exact ih _ hshort (fun d hd => h d (hmem d hd)) (n + 1) rfl

/-! ## One entry -/

/-- What is written of a digest is not white space. -/
theorem not_isspace_of_mem_digest {id : Sha1} {c : UInt8} (h : c ∈ gotSha1DigestToStr id) :
    isspace c = false ∧ c ≠ 0 ∧ c ≠ 10 := by
  obtain ⟨b, -, hc⟩ := List.mem_flatMap.mp h
  have hb := b.toNat_lt
  have hdigit : ∃ d < 16, c = Numeral.digit d := by
    rcases List.mem_cons.mp hc with rfl | hc
    · exact ⟨_, by omega, rfl⟩
    · exact ⟨_, by omega, List.mem_singleton.mp hc⟩
  obtain ⟨d, hd, rfl⟩ := hdigit
  obtain ⟨hspace, -, -, hzero⟩ := digit_spec d hd
  refine ⟨hspace, hzero, fun h => ?_⟩
  rw [h, isspace_ten] at hspace
  exact absurd hspace (by decide)

/-- A short message has neither a newline nor a NUL. -/
theorem getShortLogmsg_spec (limit : ℕ) (commit : Commit) :
    0 ∉ getShortLogmsg limit commit ∧ 10 ∉ getShortLogmsg limit commit := by
  unfold getShortLogmsg trimLogmsg
  refine ⟨fun h => ?_, ten_not_mem_takeWhile _⟩
  exact (strdup (skipSpace (gotObjectCommitGetLogmsg commit))).2
    (List.mem_of_mem_take (List.takeWhile_subset _ h))

/-- **A command is found again.** -/
theorem matchCmd_name {cmd : HisteditCmd} (h : cmd ≠ .mesg) (rest : Bytes) :
    matchCmd (cmd.name ++ 0x20 :: rest) gotHisteditCmds = some (cmd, 0x20 :: rest) := by
  cases cmd with
  | mesg => exact absurd rfl h
  | _ => rfl

theorem matchCmd_mesg (rest : Bytes) :
    matchCmd (HisteditCmd.mesg.code :: 0x20 :: rest) gotHisteditCmds
      = some (.mesg, 0x20 :: rest) := rfl

/-- What a command begins with. -/
theorem name_spec (cmd : HisteditCmd) :
    (∀ c ∈ cmd.name, c ≠ 0 ∧ c ≠ 10)
      ∧ ∃ c rest, cmd.name = c :: rest ∧ isspace c = false ∧ c ≠ '#'.toUInt8 := by
  cases cmd with
  | pick => exact ⟨by decide +kernel, _, _, rfl, by decide, by decide⟩
  | edit => exact ⟨by decide +kernel, _, _, rfl, by decide, by decide⟩
  | fold => exact ⟨by decide +kernel, _, _, rfl, by decide, by decide⟩
  | drop => exact ⟨by decide +kernel, _, _, rfl, by decide, by decide⟩
  | mesg => exact ⟨by decide +kernel, _, _, rfl, by decide, by decide⟩

/-- **The line of a commit.** -/
theorem parseLine_commit {line : Bytes}
    (h : histeditWriteCommit repo hle.commitId hle.cmd.name = .ok line) :
    Terminated (fun c : UInt8 => decide (c = 10)) line
      ∧ ∀ n cmds, parseLine repo editor n cmds line
        = .ok (⟨hle.cmd, hle.commitId, none, hle.notMesg⟩ :: cmds) := by
  obtain ⟨commit, hopen, h⟩ := bind_eq_ok_iff.mp h
  obtain ⟨hzero, hten⟩ := getShortLogmsg_spec 34 commit
  obtain ⟨hname, c, t, hcons, hspace, hhash⟩ := name_spec hle.cmd
  generalize getShortLogmsg 34 commit = short at h hzero hten
  have hline : line = (hle.cmd.name ++ 0x20 :: (gotSha1DigestToStr hle.commitId ++ 0x20 :: short))
      ++ [10] := by
    rw [← Except.ok.inj h]
    simp only [List.append_assoc, List.cons_append]
  have hresolve : gotObjectResolveIdStr repo (gotSha1DigestToStr hle.commitId)
      = .ok hle.commitId := by
    have hobj : ∃ obj, gotObjectOpen repo hle.commitId = .ok obj := by
      unfold gotObjectOpenAsCommit at hopen
      unfold gotObjectOpen
      cases hrepo : repo hle.commitId with
      | none =>
        rw [hrepo] at hopen
        exact nomatch hopen
      | some obj => exact ⟨obj, rfl⟩
    obtain ⟨obj, hobj⟩ := hobj
    have hdigest := gotParseSha1Digest_append hle.commitId []
    rw [List.append_nil] at hdigest
    rw [gotObjectResolveIdStr, hdigest]
    dsimp only
    rw [hobj, ok_bind]
    rfl
  constructor
  · refine ⟨_, 10, hline, by decide, fun d hd => ?_⟩
    rw [decide_eq_false_iff_not]
    rcases List.mem_append.mp hd with hd | hd
    · exact (hname d hd).2
    rcases List.mem_cons.mp hd with rfl | hd
    · decide
    rcases List.mem_append.mp hd with hd | hd
    · exact (not_isspace_of_mem_digest hd).2.2
    rcases List.mem_cons.mp hd with rfl | hd
    · decide
    · rintro rfl
      exact hten hd
  · intro n cmds
    have hnonzero : 0 ∉ line := by
      rw [hline]
      intro hmem
      rcases List.mem_append.mp hmem with hmem | hmem
      · rcases List.mem_append.mp hmem with hmem | hmem
        · exact (hname 0 hmem).1 rfl
        rcases List.mem_cons.mp hmem with hmem | hmem
        · exact absurd hmem (by decide)
        rcases List.mem_append.mp hmem with hmem | hmem
        · exact (not_isspace_of_mem_digest hmem).2.1 rfl
        rcases List.mem_cons.mp hmem with hmem | hmem
        · exact absurd hmem (by decide)
        · exact hzero hmem
      · exact absurd (List.mem_singleton.mp hmem) (by decide)
    have hskip : skipSpace line = line := by
      rw [hline, hcons]
      exact skipSpace_of_not hspace _
    have hcmd : matchCmd line gotHisteditCmds
        = some (hle.cmd, 0x20 :: (gotSha1DigestToStr hle.commitId ++ 0x20 :: (short ++ [10]))) := by
      rw [hline]
      simp only [List.append_assoc, List.cons_append]
      exact matchCmd_name hle.notMesg _
    have hid : (skipSpace (0x20 :: (gotSha1DigestToStr hle.commitId ++ 0x20 :: (short ++ [10])))
        ).takeWhile (fun c => ¬isspace c) = gotSha1DigestToStr hle.commitId := by
      have hne : gotSha1DigestToStr hle.commitId ≠ [] := by
        intro hnil
        have := length_gotSha1DigestToStr hle.commitId
        rw [hnil] at this
        exact absurd this (by decide)
      obtain ⟨d, ds, hds⟩ := List.exists_cons_of_ne_nil hne
      have hd : isspace d = false :=
        (not_isspace_of_mem_digest (hds ▸ List.mem_cons_self : d ∈ _)).1
      have hsp : skipSpace (0x20 :: (gotSha1DigestToStr hle.commitId ++ 0x20 :: (short ++ [10])))
          = gotSha1DigestToStr hle.commitId ++ 0x20 :: (short ++ [10]) := by
        rw [skipSpace, List.dropWhile_cons_of_pos (by decide), hds]
        exact skipSpace_of_not hd _
      rw [hsp, List.takeWhile_append_of_pos (fun c hc => by
        simpa using (not_isspace_of_mem_digest hc).1), List.takeWhile_cons_of_neg (by decide),
        List.append_nil]
    have hhead : ¬(line.head? = some '#'.toUInt8 ∨ line = []) := by
      rw [hline, hcons]
      rintro (h | h)
      · exact hhash (Option.some.inj h)
      · exact nomatch h
    unfold parseLine
    dsimp only
    rw [takeWhile_of_not_mem hnonzero, hskip, if_neg hhead, hcmd]
    dsimp only
    rw [dif_neg hle.notMesg, hid, hresolve]

/-- **The line of a message.** -/
theorem parseLine_mesg {body : Bytes} (hzero : 0 ∉ body) (hnone : hle.logmsg = none) :
    parseLine repo editor n (hle :: before) ([HisteditCmd.mesg.code, 0x20] ++ body ++ [10])
      = (do
        let logmsg ← mesgLogmsg repo editor hle before (skipSpace (body ++ [10]))
        return { hle with logmsg := some logmsg } :: before) := by
  have hnonzero : 0 ∉ [HisteditCmd.mesg.code, 0x20] ++ body ++ [10] := by
    intro hmem
    rcases List.mem_append.mp hmem with hmem | hmem
    · rcases List.mem_append.mp hmem with hmem | hmem
      · exact absurd hmem (by decide)
      · exact hzero hmem
    · exact absurd hmem (by decide)
  have hskip : skipSpace ([HisteditCmd.mesg.code, 0x20] ++ body ++ [10])
      = HisteditCmd.mesg.code :: 0x20 :: (body ++ [10]) := skipSpace_of_not (by decide) _
  unfold parseLine
  dsimp only
  rw [takeWhile_of_not_mem hnonzero, hskip, if_neg (by
    rintro (h | h)
    · exact absurd (Option.some.inj h) (by decide)
    · exact nomatch h), matchCmd_mesg]
  dsimp only
  rw [dif_pos rfl, hnone, if_neg (by exact Bool.false_ne_true)]
  rfl

/-! ## One message -/

/-- **A message that stays on its line**: it starts with something else than white space, and
there is nothing but white space behind its first line. -/
def OneLine (msg : CStr) : Prop :=
  (∃ c rest, msg.val = c :: rest ∧ isspace c = false) ∧ 10 ∉ cutSpace msg.val

/-- The first line of a saved message. -/
theorem parseLoop_message (hnone : hle.logmsg = none) (msg : CStr) (more : Bytes) (n : ℕ) :
    parseLoop repo editor n (hle :: before)
        (lines (· = 10) (mesgLine (some msg) ++ more))
      = (do
        let logmsg ← mesgLogmsg repo editor hle before
          (skipSpace (msg.val.takeWhile (· ≠ 10) ++ [10]))
        parseLoop repo editor (n + 1) ({ hle with logmsg := some logmsg } :: before)
          (lines (· = 10) (behind msg.val more))) := by
  have htext : mesgLine (some msg) ++ more
      = [HisteditCmd.mesg.code, 0x20] ++ (msg.val ++ 10 :: more) := by
    simp only [mesgLine, List.cons_append, List.append_assoc, List.nil_append]
  have hzero : 0 ∉ msg.val.takeWhile (· ≠ 10) := fun h => msg.2 (List.takeWhile_subset _ h)
  rw [htext, lines_message (by decide), parseLoop, parseLine_mesg hzero hnone]
  cases mesgLogmsg repo editor hle before (skipSpace (msg.val.takeWhile (· ≠ 10) ++ [10])) <;> rfl

theorem val_strdup {p : Bytes} (h : 0 ∉ p) : (strdup p).val = p := takeWhile_of_not_mem h

/-- **A message that stays on its line is read again**, up to white space at its end. -/
theorem parseLoop_oneLine (hnone : hle.logmsg = none) {msg : CStr} (h : OneLine msg)
    (more : Bytes) (n : ℕ) :
    ∃ n' msg', parseLoop repo editor n (hle :: before)
        (lines (· = 10) (mesgLine (some msg) ++ more))
      = parseLoop repo editor n' ({ hle with logmsg := some msg' } :: before)
          (lines (· = 10) more) ∧ cutSpace msg'.val = cutSpace msg.val := by
  obtain ⟨⟨c, rest, hmsg, hspace⟩, hten⟩ := h
  obtain ⟨ws, hsplit, hws⟩ := cutSpace_split msg.val
  have hcten : c ≠ 10 := by
    rintro rfl
    rw [isspace_ten] at hspace
    exact absurd hspace (by decide)
  have hpos : ∀ d ∈ cutSpace msg.val, decide (d ≠ 10) = true := by
    intro d hd
    rw [decide_eq_true_iff]
    rintro rfl
    exact hten hd
  have hfirst : msg.val.takeWhile (· ≠ 10) = cutSpace msg.val ++ ws.takeWhile (· ≠ 10) := by
    conv_lhs => rw [hsplit]
    exact List.takeWhile_append_of_pos hpos
  have hskip : skipSpace (msg.val.takeWhile (· ≠ 10) ++ [10])
      = msg.val.takeWhile (· ≠ 10) ++ [10] := by
    rw [hmsg, List.takeWhile_cons_of_pos (by simpa using hcten)]
    exact skipSpace_of_not hspace _
  have hzero : 0 ∉ msg.val.takeWhile (· ≠ 10) ++ [10] := by
    intro hmem
    rcases List.mem_append.mp hmem with hmem | hmem
    · exact msg.2 (List.takeWhile_subset _ hmem)
    · exact absurd hmem (by decide)
  have hcut : cutSpace (strdup (msg.val.takeWhile (· ≠ 10) ++ [10])).val = cutSpace msg.val := by
    have hall : ∀ d ∈ ws.takeWhile (· ≠ 10) ++ [10], isspace d = true := by
      intro d hd
      rcases List.mem_append.mp hd with hd | hd
      · exact hws d (List.takeWhile_subset _ hd)
      · rw [List.mem_singleton.mp hd]
        exact isspace_ten
    rw [val_strdup hzero, hfirst, List.append_assoc, cutSpace_append hall]
    conv_rhs => rw [hsplit, cutSpace_append hws]
  have hloop := @parseLoop_message repo editor before hle hnone msg more n
  rw [hskip, mesgLogmsg, if_neg (by simp), ok_bind] at hloop
  have hbehind : ∃ n', parseLoop repo editor (n + 1)
        ({ hle with logmsg := some (strdup (msg.val.takeWhile (· ≠ 10) ++ [10])) } :: before)
        (lines (· = 10) (behind msg.val more))
      = parseLoop repo editor n'
        ({ hle with logmsg := some (strdup (msg.val.takeWhile (· ≠ 10) ++ [10])) } :: before)
        (lines (· = 10) more) := by
    have hdrop : msg.val.dropWhile (· ≠ 10) = ws.dropWhile (· ≠ 10) := by
      conv_lhs => rw [hsplit]
      exact List.dropWhile_append_of_pos hpos
    unfold behind
    rw [hdrop]
    split
    · exact ⟨n + 1, rfl⟩
    · next d tail heq =>
      exact parseLoop_blank (fun e he => hws e
        (List.dropWhile_subset _ (heq ▸ List.mem_cons_of_mem d he))) more (n + 1)
  obtain ⟨n', hbehind⟩ := hbehind
  exact ⟨n', _, hloop.trans hbehind, hcut⟩

/-- **Once there is a message it is not changed.** -/
theorem parseLoop_ok_suffix {res : List HisteditListEntry} {ls : List Bytes}
    (hsome : hle.logmsg.isSome)
    (h : parseLoop repo editor n (cmds ++ hle :: before) ls = .ok res) :
    ∃ new, res = new ++ hle :: before := by
  induction ls generalizing n cmds with
  | nil => exact ⟨cmds, (Except.ok.inj h).symm⟩
  | cons line ls ih =>
    obtain ⟨cmds', hline, h⟩ := bind_eq_ok_iff.mp h
    have hnext : ∃ new, cmds' = new ++ hle :: before := by
      unfold parseLine at hline
      dsimp only at hline
      split at hline
      · exact ⟨cmds, (Except.ok.inj hline).symm⟩
      split at hline
      · exact nomatch hline
      next cmd p hcmd =>
      split at hline
      · cases cmds with
        | nil =>
          rw [List.nil_append] at hline
          dsimp only at hline
          rw [if_pos hsome] at hline
          exact nomatch hline
        | cons last cmds =>
          rw [List.cons_append] at hline
          dsimp only at hline
          split at hline
          · exact nomatch hline
          · obtain ⟨logmsg, -, hline⟩ := bind_eq_ok_iff.mp hline
            exact ⟨{ last with logmsg := some logmsg } :: cmds, (Except.ok.inj hline).symm⟩
      · split at hline
        · exact nomatch hline
        · exact ⟨_ :: cmds, (Except.ok.inj hline).symm⟩
    obtain ⟨new, rfl⟩ := hnext
    exact ih h

/-- An editor that cannot be started. -/
def noEditor : Editor := fun _ => .error (.errno .noent)

/-- Without an editor no message is read. -/
theorem histeditEditLogmsg_noEditor (msg : CStr) :
    histeditEditLogmsg repo noEditor hle before ≠ .ok msg := by
  intro h
  obtain ⟨commit, -, h⟩ := bind_eq_ok_iff.mp h
  obtain ⟨logmsg, -, h⟩ := bind_eq_ok_iff.mp h
  exact nomatch h

/-- **A message that is read again is on one line**, if there is no editor. -/
theorem oneLine_of_parseLoop (hnone : hle.logmsg = none) {msg : CStr} {more : Bytes}
    {res : List HisteditListEntry}
    (h : parseLoop repo noEditor n (hle :: before)
      (lines (· = 10) (mesgLine (some msg) ++ more)) = .ok res) :
    ∃ new msg', res = new ++ { hle with logmsg := some msg' } :: before
      ∧ (cutSpace msg'.val = cutSpace msg.val → OneLine msg) := by
  rw [parseLoop_message hnone] at h
  obtain ⟨msg', hmsg', h⟩ := bind_eq_ok_iff.mp h
  obtain ⟨new, hres⟩ := @parseLoop_ok_suffix _ _ _ [] _ { hle with logmsg := some msg' } _ _ rfl h
  refine ⟨new, msg', hres, fun hcut => ?_⟩
  unfold mesgLogmsg at hmsg'
  split at hmsg'
  · exact absurd hmsg' (histeditEditLogmsg_noEditor msg')
  next hne =>
  -- white space in front of the message is not there any more
  obtain ⟨c, t, hcons⟩ := List.exists_cons_of_ne_nil hne
  have hspace : isspace c = false := by
    have hc := List.head?_dropWhile_not isspace (msg.val.takeWhile (· ≠ 10) ++ [10])
    rw [skipSpace] at hcons
    rw [hcons] at hc
    exact hc
  have hsub : ∀ d ∈ c :: t, d ∈ msg.val.takeWhile (· ≠ 10) ++ [10] := fun d hd =>
    List.dropWhile_subset isspace (show d ∈ skipSpace _ from hcons ▸ hd)
  have hzero : 0 ∉ c :: t := by
    intro hmem
    rcases List.mem_append.mp (hsub 0 hmem) with hmem | hmem
    · exact msg.2 (List.takeWhile_subset _ hmem)
    · exact absurd hmem (by decide)
  have hval : msg'.val = c :: t := by
    rw [← Except.ok.inj hmsg', hcons, val_strdup hzero]
  obtain ⟨u, hu⟩ := cutSpace_cons hspace t
  obtain ⟨ws, hsplit, -⟩ := cutSpace_split msg.val
  rw [← hcut, hval, hu, List.cons_append] at hsplit
  refine ⟨⟨c, u ++ ws, hsplit, hspace⟩, fun hten => ?_⟩
  -- nor is there another line
  have hfirst : c :: t = skipSpace (msg.val.takeWhile (· ≠ 10)) ++ [10] := by
    rw [← hcons, skipSpace, List.dropWhile_append]
    split
    · next hempty =>
      rw [skipSpace, List.dropWhile_append, if_pos hempty] at hcons
      exact nomatch hcons
    · rfl
  rw [← hcut, hval, hfirst, cutSpace_append (by simp [isspace_ten])] at hten
  obtain ⟨ws', hsplit', -⟩ := cutSpace_split (skipSpace (msg.val.takeWhile (· ≠ 10)))
  have hmem : 10 ∈ skipSpace (msg.val.takeWhile (· ≠ 10)) := by
    rw [hsplit']
    exact List.mem_append_left _ hten
  exact ten_not_mem_takeWhile _ (List.dropWhile_subset _ hmem)

/-! ## The whole script -/

/-- **The same command**, commit and message, up to white space at its end. -/
structure SameEntry (hle hle' : HisteditListEntry) : Prop where
  cmd : hle.cmd = hle'.cmd
  commitId : hle.commitId = hle'.commitId
  logmsg : hle.logmsg.map (fun msg => cutSpace msg.val)
    = hle'.logmsg.map fun msg => cutSpace msg.val

/-- What comes behind is not looked at to find out where a commit is. -/
theorem parseLoop_commit {line : Bytes}
    (h : histeditWriteCommit repo hle.commitId hle.cmd.name = .ok line) (more : Bytes) (n : ℕ)
    (cmds : List HisteditListEntry) :
    parseLoop repo editor n cmds (lines (· = 10) (line ++ more))
      = parseLoop repo editor (n + 1) (⟨hle.cmd, hle.commitId, none, hle.notMesg⟩ :: cmds)
          (lines (· = 10) more) := by
  obtain ⟨hline, hparse⟩ := @parseLine_commit repo editor hle line h
  rw [lines_cons hline, parseLoop, hparse, ok_bind]

/-- **A saved script is read back** when every message is one line. -/
theorem parseLoop_save {script : List HisteditListEntry} {f : Bytes}
    (h : histeditSaveList repo script = .ok f)
    (hone : ∀ hle ∈ script, ∀ msg, hle.logmsg = some msg → OneLine msg) :
    ∃ cmds', List.Forall₂ SameEntry script cmds'
      ∧ parseLoop repo editor n cmds (lines (· = 10) f) = .ok (cmds'.reverse ++ cmds) := by
  induction script generalizing f n cmds with
  | nil =>
    obtain rfl := Except.ok.inj h
    exact ⟨[], List.Forall₂.nil, rfl⟩
  | cons hle script ih =>
    obtain ⟨line, hline, h⟩ := bind_eq_ok_iff.mp h
    obtain ⟨more, hmore, h⟩ := bind_eq_ok_iff.mp h
    have hrest : ∀ hle' ∈ script, ∀ msg, hle'.logmsg = some msg → OneLine msg :=
      fun hle' hmem => hone hle' (List.mem_cons_of_mem _ hmem)
    rw [← Except.ok.inj h, List.append_assoc, parseLoop_commit hline]
    cases hmsg : hle.logmsg with
    | none =>
      obtain ⟨cmds', hsame, hparse⟩ := @ih (n + 1)
        (⟨hle.cmd, hle.commitId, none, hle.notMesg⟩ :: cmds) more hmore hrest
      refine ⟨⟨hle.cmd, hle.commitId, none, hle.notMesg⟩ :: cmds',
        List.Forall₂.cons ⟨rfl, rfl, by rw [hmsg]⟩ hsame, ?_⟩
      rw [List.reverse_cons, List.append_assoc, List.singleton_append]
      exact hparse
    | some msg =>
      obtain ⟨n', msg', hmesg, hcut⟩ := @parseLoop_oneLine repo editor cmds
        ⟨hle.cmd, hle.commitId, none, hle.notMesg⟩ rfl msg
        (hone hle List.mem_cons_self msg hmsg) more (n + 1)
      rw [hmesg]
      obtain ⟨cmds', hsame, hparse⟩ := @ih n'
        (⟨hle.cmd, hle.commitId, some msg', hle.notMesg⟩ :: cmds) more hmore hrest
      refine ⟨⟨hle.cmd, hle.commitId, some msg', hle.notMesg⟩ :: cmds',
        List.Forall₂.cons ⟨rfl, rfl, ?_⟩ hsame, ?_⟩
      · rw [hmsg]
        exact congrArg some hcut.symm
      · rw [List.reverse_cons, List.append_assoc, List.singleton_append]
        exact hparse

/-- Conversely, a script that is read back without an editor has only messages of one line. -/
theorem oneLine_of_parseLoop_save {script cmds' : List HisteditListEntry} {f : Bytes}
    (h : histeditSaveList repo script = .ok f) (hsame : List.Forall₂ SameEntry script cmds')
    (hparse : parseLoop repo noEditor n cmds (lines (· = 10) f) = .ok (cmds'.reverse ++ cmds)) :
    ∀ hle ∈ script, ∀ msg, hle.logmsg = some msg → OneLine msg := by
  induction hsame generalizing f n cmds with
  | nil => exact fun _ hmem => absurd hmem List.not_mem_nil
  | @cons hle hle' script cmds' hentry hsame ih =>
    obtain ⟨line, hline, h⟩ := bind_eq_ok_iff.mp h
    obtain ⟨more, hmore, h⟩ := bind_eq_ok_iff.mp h
    rw [← Except.ok.inj h, List.append_assoc, parseLoop_commit hline, List.reverse_cons,
      List.append_assoc, List.singleton_append] at hparse
    have hlogmsg := hentry.logmsg
    cases hmsg : hle.logmsg with
    | none =>
      rw [hmsg, Option.map_none, eq_comm, Option.map_eq_none_iff] at hlogmsg
      have hle'_eq : hle' = ⟨hle.cmd, hle.commitId, none, hle.notMesg⟩ := by
        obtain ⟨cmd, commitId, logmsg, notMesg⟩ := hle'
        obtain rfl : hle.cmd = cmd := hentry.cmd
        obtain rfl : hle.commitId = commitId := hentry.commitId
        obtain rfl : logmsg = none := hlogmsg
        rfl
      rw [hle'_eq, hmsg, mesgLine, List.nil_append] at hparse
      intro hle₁ hmem msg hmsg₁
      rcases List.mem_cons.mp hmem with rfl | hmem
      · rw [hmsg] at hmsg₁
        exact nomatch hmsg₁
      · exact ih hmore hparse hle₁ hmem msg hmsg₁
    | some msg =>
      rw [hmsg] at hparse
      obtain ⟨new, msg', hres, hcut⟩ := @oneLine_of_parseLoop repo (n + 1) cmds
        ⟨hle.cmd, hle.commitId, none, hle.notMesg⟩ rfl msg more _ hparse
      -- the entry that was read is the one which has the message
      obtain ⟨-, heq⟩ := List.append_inj' hres (by rw [List.length_cons, List.length_cons])
      have hle'_eq : hle' = ⟨hle.cmd, hle.commitId, some msg', hle.notMesg⟩ :=
        List.head_eq_of_cons_eq heq
      rw [hmsg, hle'_eq] at hlogmsg
      have hone := hcut (Option.some.inj hlogmsg).symm
      intro hle₁ hmem msg₁ hmsg₁
      rcases List.mem_cons.mp hmem with rfl | hmem
      · rw [hmsg] at hmsg₁
        exact Option.some.inj hmsg₁ ▸ hone
      · obtain ⟨n', msg'', hmesg, -⟩ := @parseLoop_oneLine repo noEditor cmds
          ⟨hle.cmd, hle.commitId, none, hle.notMesg⟩ rfl msg hone more (n + 1)
        rw [hmesg] at hparse
        obtain ⟨new', hres'⟩ := @parseLoop_ok_suffix _ _ _ [] cmds
          ⟨hle.cmd, hle.commitId, some msg'', hle.notMesg⟩ _ _ rfl hparse
        obtain ⟨-, heq'⟩ := List.append_inj' hres' (by rw [List.length_cons, List.length_cons])
        rw [List.head_eq_of_cons_eq heq'] at hparse
        exact ih hmore hparse hle₁ hmem msg₁ hmsg₁

/-- **A script that was saved is read again**, whatever the user would enter in an editor, if
and only if each of its messages stays on its line. -/
theorem histeditParseList_save_iff {script : List HisteditListEntry} {f : Bytes}
    (h : histeditSaveList repo script = .ok f) :
    (∀ editor, ∃ cmds', histeditParseList repo editor f = .ok cmds'
        ∧ List.Forall₂ SameEntry script cmds')
      ↔ ∀ hle ∈ script, ∀ msg, hle.logmsg = some msg → OneLine msg := by
  constructor
  · intro hread
    obtain ⟨cmds', hparse, hsame⟩ := hread noEditor
    obtain ⟨res, hloop, hres⟩ := bind_eq_ok_iff.mp hparse
    have hrev : res = cmds'.reverse ++ [] := by
      rw [List.append_nil, ← Except.ok.inj hres, List.reverse_reverse]
    exact oneLine_of_parseLoop_save h hsame (hrev ▸ hloop)
  · intro hone editor
    obtain ⟨cmds', hsame, hloop⟩ := @parseLoop_save repo editor 0 [] script f h hone
    refine ⟨cmds', bind_eq_ok_iff.mpr ⟨_, hloop, ?_⟩, hsame⟩
    rw [List.append_nil, List.reverse_reverse]
    rfl

/-- A repository with a commit. -/
def someRepo : Repository := fun _ => some (.commit ⟨someId, [], none, none, text "one\n"⟩)

/-- A commit with a message of one line, and one with none. -/
def someScript : List HisteditListEntry :=
  [⟨.edit, someId, some (strdup (text "two \n")), by decide⟩, ⟨.drop, someId, none, by decide⟩]

/-- The theorem at work on a script with one `mesg` command. -/
theorem histeditParseList_save_someScript :
    ∃ f, histeditSaveList someRepo someScript = .ok f
      ∧ ∀ editor, ∃ cmds', histeditParseList someRepo editor f = .ok cmds'
        ∧ List.Forall₂ SameEntry someScript cmds' := by
  refine ⟨_, rfl, (histeditParseList_save_iff rfl).mpr fun hle hmem msg hmsg => ?_⟩
  have hmsg' : msg = strdup (text "two \n") := by
    rcases List.mem_cons.mp hmem with rfl | hmem
    · exact (Option.some.inj hmsg).symm
    · rw [List.mem_singleton.mp hmem] at hmsg
      exact nomatch hmsg
  rw [hmsg']
  exact ⟨⟨_, _, rfl, by decide⟩, by decide⟩

/-- A commit with a message of two lines. -/
def twoLines : List HisteditListEntry :=
  [⟨.pick, someId, some (strdup (text "one\ntwo")), by decide⟩]

/-- **The second line of a message is read as a command.** -/
theorem histeditParseList_save_ne : ¬ ∀ (repo : Repository) (script : List HisteditListEntry)
    (f : Bytes), histeditSaveList repo script = .ok f → ∀ editor, ∃ cmds',
      histeditParseList repo editor f = .ok cmds' ∧ List.Forall₂ SameEntry script cmds' := by
  intro h
  obtain ⟨f, hsave⟩ : ∃ f, histeditSaveList someRepo twoLines = .ok f := ⟨_, rfl⟩
  have hsyntax : (histeditSaveList someRepo twoLines >>= histeditParseList someRepo noEditor)
      = .error (histeditSyntaxError 3) := rfl
  obtain ⟨cmds', hparse, -⟩ := h _ _ _ hsave noEditor
  rw [hsave, ok_bind, hparse] at hsyntax
  exact nomatch hsyntax

end Histedit

end Got

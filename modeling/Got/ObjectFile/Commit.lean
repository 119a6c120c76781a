import Got.ObjectFile.Text

/-!
# The content of a commit object

A commit is written with the log message behind an empty line, and a newline behind
the message, from which white space at either end is taken away. All of it is read
back (`gotObjectParseCommit_create`), but the log message is read with the newlines
around it, and `got_object_commit_get_logmsg` leaves them there.
-/

namespace Got

open Numeral

namespace ObjectFile

def GOT_COMMIT_LABEL_TREE : Bytes := text "tree "
def GOT_COMMIT_LABEL_PARENT : Bytes := text "parent "
def GOT_COMMIT_LABEL_AUTHOR : Bytes := text "author "
def GOT_COMMIT_LABEL_COMMITTER : Bytes := text "committer "

/-! ## Writing -/

/-- White space at the end of a message is cut off. -/
def cutSpace (msg : Bytes) : Bytes := (msg.reverse.dropWhile isspace).reverse

/-- **The message that is written.** -/
def trimmed (logmsg : Bytes) : Bytes := cutSpace (skipSpace logmsg)

/-- **`got_object_commit_create`**: the file that is stored. The number of parents is
given by itself. -/
def gotObjectCommitCreate (treeId : Sha1) (parentIds : List Sha1) (nparents : ℕ) (author : Bytes)
    (authorTime : ℤ) (committer : Option Bytes) (committerTime : ℤ) (logmsg : Bytes) : Bytes :=
  let msg := trimmed logmsg
  let authorStr := identLine GOT_COMMIT_LABEL_AUTHOR author authorTime
  let committerStr := identLine GOT_COMMIT_LABEL_COMMITTER (committer.getD author)
    (if committer.isSome then committerTime else authorTime)
  let len := GOT_COMMIT_LABEL_TREE.length + SHA1_DIGEST_STRING_LENGTH
    + nparents * (GOT_COMMIT_LABEL_PARENT.length + SHA1_DIGEST_STRING_LENGTH)
    + authorStr.length + committerStr.length + 2 + msg.length
  let treeStr := GOT_COMMIT_LABEL_TREE ++ (gotSha1DigestToStr treeId ++ [0x0a])
  let parentStr (id : Sha1) := GOT_COMMIT_LABEL_PARENT ++ (gotSha1DigestToStr id ++ [0x0a])
  objectHeader (text "commit") len
    ++ (treeStr ++ (parentIds.flatMap parentStr ++ (authorStr ++ (committerStr
      ++ ([0x0a] ++ (msg ++ [0x0a]))))))

/-! ## Reading -/

/-- **`struct got_commit_object`**, as far as it is read from the file. -/
structure Commit where
  treeId : Sha1
  parentIds : List Sha1
  author : Option Ident
  committer : Option Ident
  logmsg : Bytes
  deriving DecidableEq

/-- The loop over the parents. -/
def parseParents : ℕ → Bytes → ℤ → Except GotErr (List Sha1 × Bytes × ℤ)
  | 0, _, _ => .error .fuel
  | n + 1, s, remain =>
    if GOT_COMMIT_LABEL_PARENT.isPrefixOf s then do
      let (id, s, remain) ← parseIdLine GOT_COMMIT_LABEL_PARENT s remain
      let (ids, s, remain) ← parseParents n s remain
      return (id :: ids, s, remain)
    else .ok ([], s, remain)

/-- A line with a person that can be missing. -/
def parseIdentLine? (label s : Bytes) (remain : ℤ) : Except GotErr (Option Ident × Bytes × ℤ) :=
  if label.isPrefixOf s then do
    let (ident, s, remain) ← parseIdentLine label s remain
    return (some ident, s, remain)
  else .ok (none, s, remain)

/-- **`got_object_parse_commit`** -/
def gotObjectParseCommit (buf : Bytes) : Except GotErr Commit :=
  let remain : ℤ := buf.length
  if remain = 0 then .error .badObjData
  else if ¬GOT_COMMIT_LABEL_TREE.isPrefixOf buf then .error .badObjData
  else do
    let (treeId, s, remain) ← parseIdLine GOT_COMMIT_LABEL_TREE buf remain
    let (parentIds, s, remain) ← parseParents (buf.length + 1) s remain
    let (author, s, remain) ← parseIdentLine? GOT_COMMIT_LABEL_AUTHOR s remain
    let (committer, s, remain) ← parseIdentLine? GOT_COMMIT_LABEL_COMMITTER s remain
    return { treeId, parentIds, author, committer
             logmsg := (s.take remain.toNat).takeWhile (· ≠ 0) }

/-- The lines that `strsep` finds. -/
def strsepLines : Bytes → List Bytes
  | [] => [[]]
  | c :: s =>
    if c = 0x0a then [] :: strsepLines s
    else
      match strsepLines s with
      | [] => [[c]]
      | line :: lines => (c :: line) :: lines

/-- The loop of `got_object_commit_get_logmsg`, which strips out unusual headers. -/
def logmsgLoop : List Bytes → Bool → Option Bytes → Option Bytes
  | [], _, logmsg => logmsg
  | line :: lines, headers, logmsg =>
    if headers ∧ line ≠ [] ∧ ¬GOT_COMMIT_LABEL_TREE.isPrefixOf line
        ∧ ¬GOT_COMMIT_LABEL_AUTHOR.isPrefixOf line ∧ ¬GOT_COMMIT_LABEL_PARENT.isPrefixOf line
        ∧ ¬GOT_COMMIT_LABEL_COMMITTER.isPrefixOf line then
      logmsgLoop lines headers logmsg
    else
      logmsgLoop lines (headers ∧ line ≠ []) (some (logmsg.getD [] ++ line ++ [0x0a]))

/-- Trim redundant trailing white space, from the end. -/
def trimRedundant : Bytes → Bytes
  | last :: prev :: rest =>
    if isspace prev ∧ isspace last then trimRedundant (prev :: rest) else last :: prev :: rest
  | rest => rest

/-- **`got_object_commit_get_logmsg`** -/
def gotObjectCommitGetLogmsg (commit : Commit) : Bytes :=
  let logmsg := (logmsgLoop (strsepLines commit.logmsg) true none).getD commit.logmsg
  (trimRedundant logmsg.reverse).reverse

/-! ## The log message -/

/-- Nothing is lost by the lines. -/
theorem flatMap_strsepLines (s : Bytes) : (strsepLines s).flatMap (· ++ [0x0a]) = s ++ [0x0a] := by
  induction s with
  | nil => rfl
  | cons c s ih =>
    rw [strsepLines]
    split
    · next hc =>
      rw [List.flatMap_cons, ih, hc]
      rfl
    · split
      · next heq =>
        rw [heq] at ih
        exact absurd ih.symm (List.append_ne_nil_of_right_ne_nil s (List.cons_ne_nil _ _))
      · next line lines heq =>
        rw [heq] at ih
        rw [List.flatMap_cons, List.cons_append, List.cons_append, List.cons_append, ← ih,
          List.flatMap_cons]

/-- Behind an empty line there are no headers. -/
theorem logmsgLoop_false (lines : List Bytes) (logmsg : Bytes) :
    logmsgLoop lines false (some logmsg) = some (logmsg ++ lines.flatMap (· ++ [0x0a])) := by
  induction lines generalizing logmsg with
  | nil =>
    rw [logmsgLoop, List.flatMap_nil, List.append_nil]
  | cons line lines ih =>
    rw [logmsgLoop, if_neg (by simp)]
    show logmsgLoop lines false (some (logmsg ++ line ++ [0x0a])) = _
    rw [ih, List.flatMap_cons]
    simp only [List.append_assoc]

/-- White space in front of something is trimmed. -/
theorem trimRedundant_of_isspace {last prev : UInt8} (hlast : isspace last) (hprev : isspace prev)
    (rest : Bytes) : trimRedundant (last :: prev :: rest) = trimRedundant (prev :: rest) := by
  rw [trimRedundant, if_pos ⟨hprev, hlast⟩]

theorem trimRedundant_of_not_isspace (last : UInt8) {prev : UInt8} (hprev : isspace prev = false)
    (rest : Bytes) : trimRedundant (last :: prev :: rest) = last :: prev :: rest := by
  rw [trimRedundant, if_neg (by simp [hprev])]

/-- The message that is written ends with something else. -/
theorem trimmed_reverse (logmsg : Bytes) :
    trimmed logmsg = [] ∨ ∃ c rest, (trimmed logmsg).reverse = c :: rest ∧ isspace c = false := by
  rw [trimmed, cutSpace, List.reverse_reverse]
  cases heq : (skipSpace logmsg).reverse.dropWhile isspace with
  | nil => exact Or.inl rfl
  | cons c rest =>
    have h := List.head?_dropWhile_not isspace (skipSpace logmsg).reverse
    rw [heq] at h
    exact Or.inr ⟨c, rest, rfl, by simpa using h⟩

/-- The log message as it is given to users, with a newline before it and one behind,
or with one newline if there is no message. -/
theorem getLogmsg_trimmed (commit : Commit) {logmsg : Bytes}
    (h : commit.logmsg = 0x0a :: (trimmed logmsg ++ [0x0a])) :
    gotObjectCommitGetLogmsg commit
      = if trimmed logmsg = [] then [0x0a] else 0x0a :: (trimmed logmsg ++ [0x0a]) := by
  have hlines : logmsgLoop (strsepLines commit.logmsg) true none
      = some (0x0a :: (trimmed logmsg ++ [0x0a, 0x0a])) := by
    rw [h, strsepLines, if_pos rfl, logmsgLoop, if_neg (by simp)]
    show logmsgLoop _ false (some [0x0a]) = _
    rw [logmsgLoop_false, flatMap_strsepLines, List.append_assoc]
    rfl
  rw [gotObjectCommitGetLogmsg, hlines]
  dsimp only [Option.getD_some]
  have hrev : (0x0a :: (trimmed logmsg ++ [0x0a, 0x0a])).reverse
      = 0x0a :: 0x0a :: ((trimmed logmsg).reverse ++ [0x0a]) := by
    rw [List.reverse_cons, List.reverse_append]
    rfl
  rw [hrev, trimRedundant_of_isspace rfl rfl]
  rcases trimmed_reverse logmsg with hnil | ⟨c, rest, hc, hspace⟩
  · rw [hnil]
    rfl
  · have hne : trimmed logmsg ≠ [] := by
      rintro hnil
      rw [hnil] at hc
      exact nomatch hc
    rw [hc, List.cons_append, trimRedundant_of_not_isspace _ hspace, if_neg hne, ← List.cons_append,
      ← hc, List.reverse_cons, List.reverse_append, List.reverse_reverse]
    rfl

/-! ## The round trip -/

/-- What is written for a parent. -/
def parentLine (id : Sha1) : Bytes := GOT_COMMIT_LABEL_PARENT ++ (gotSha1DigestToStr id ++ [0x0a])

/-- All parent lines have the same length. -/
theorem length_flatMap_parentLine (parentIds : List Sha1) :
    (parentIds.flatMap parentLine).length
      = parentIds.length * (GOT_COMMIT_LABEL_PARENT.length + SHA1_DIGEST_STRING_LENGTH) := by
  induction parentIds with
  | nil => exact (Nat.zero_mul _).symm
  | cons id parentIds ih =>
    have hline : (parentLine id).length
        = GOT_COMMIT_LABEL_PARENT.length + SHA1_DIGEST_STRING_LENGTH := by
      rw [parentLine, List.length_append, List.length_append, length_gotSha1DigestToStr]
      rfl
    rw [List.flatMap_cons, List.length_append, ih, hline, List.length_cons, Nat.succ_mul,
      Nat.add_comm]

/-- **The parents are read**, up to something that is no parent. -/
theorem parseParents_append {n : ℕ} {parentIds : List Sha1} (hn : parentIds.length < n)
    {rest : Bytes}
    (hrest : GOT_COMMIT_LABEL_PARENT.isPrefixOf rest = false) {remain : ℤ}
    (h : remain = (parentIds.flatMap parentLine ++ rest).length) :
    parseParents n (parentIds.flatMap parentLine ++ rest) remain
      = .ok (parentIds, rest, rest.length) := by
  induction parentIds generalizing n remain with
  | nil =>
    obtain ⟨n, rfl⟩ := Nat.exists_eq_succ_of_ne_zero (Nat.ne_of_gt hn)
    rw [List.flatMap_nil, List.nil_append] at h ⊢
    rw [parseParents, hrest, if_neg Bool.false_ne_true, h]
  | cons id parentIds ih =>
    obtain ⟨n, rfl⟩ := Nat.exists_eq_succ_of_ne_zero (Nat.ne_of_gt (Nat.zero_lt_of_lt hn))
    have hline : (id :: parentIds).flatMap parentLine ++ rest = GOT_COMMIT_LABEL_PARENT
        ++ (gotSha1DigestToStr id ++ 0x0a :: (parentIds.flatMap parentLine ++ rest)) := by
      rw [List.flatMap_cons, parentLine]
      simp only [List.append_assoc, List.cons_append, List.nil_append]
    rw [hline] at h ⊢
    rw [parseParents, if_pos (List.isPrefixOf_iff_prefix.mpr (List.prefix_append _ _)),
      parseIdLine_append _ id _ _ h, ok_bind]
    dsimp only
    rw [ih (Nat.lt_of_succ_lt_succ hn) rfl]
    rfl

/-- A person that is there is read. -/
theorem parseIdentLine?_append (label : Bytes) {name : Bytes} (hzero : 0 ∉ name) (hnl : 0x0a ∉ name)
    {time : ℤ} (h0 : 0 ≤ time) (hmax : time ≤ INT64_MAX) (rest : Bytes) {remain : ℤ}
    (h : remain = (identLine label name time ++ rest).length) :
    parseIdentLine? label (identLine label name time ++ rest) remain
      = .ok (some ⟨name, time, 0⟩, rest, rest.length) := by
  have hbegin : label.isPrefixOf (identLine label name time ++ rest) = true := by
    rw [identLine, List.append_assoc]
    exact List.isPrefixOf_iff_prefix.mpr (List.prefix_append _ _)
  rw [parseIdentLine?, if_pos hbegin, parseIdentLine_append label hzero hnl h0 hmax rest h]
  rfl

/-- A message without NUL has none when it is trimmed. -/
theorem not_mem_trimmed {logmsg : Bytes} (h : 0 ∉ logmsg) : 0 ∉ trimmed logmsg := by
  intro hmem
  rw [trimmed, cutSpace, List.mem_reverse] at hmem
  have hmem := (List.dropWhile_sublist _).mem hmem
  rw [List.mem_reverse] at hmem
  exact h ((List.dropWhile_sublist _).mem hmem)

/-- **What is written for a commit is read again**, with a newline before the log message
and one behind. The header has the length of what follows it. -/
theorem gotObjectParseCommit_create (treeId : Sha1) (parentIds : List Sha1) {nparents : ℕ}
    {author : Bytes} {authorTime : ℤ} {committer : Option Bytes} {committerTime : ℤ}
    {logmsg : Bytes}
    (hparents : nparents = parentIds.length)
    (hauthor : 0 ∉ author ∧ 0x0a ∉ author) (hatime : 0 ≤ authorTime ∧ authorTime ≤ INT64_MAX)
    (hcommitter : ∀ name ∈ committer, 0 ∉ name ∧ 0x0a ∉ name)
    (hctime : 0 ≤ committerTime ∧ committerTime ≤ INT64_MAX) (hlogmsg : 0 ∉ logmsg) :
    ∃ (content : Bytes) (commit : Commit),
      gotObjectCommitCreate treeId parentIds nparents author authorTime committer committerTime
        logmsg
        = objectHeader (text "commit") content.length ++ content
      ∧ gotObjectParseCommit content = .ok commit
      ∧ commit.treeId = treeId ∧ commit.parentIds = parentIds
      ∧ commit.author = some ⟨author, authorTime, 0⟩
      ∧ commit.committer = some ⟨committer.getD author,
        if committer.isSome then committerTime else authorTime, 0⟩
      ∧ commit.logmsg = 0x0a :: (trimmed logmsg ++ [0x0a])
      ∧ gotObjectCommitGetLogmsg commit
        = if trimmed logmsg = [] then [0x0a] else 0x0a :: (trimmed logmsg ++ [0x0a]) := by
  obtain ⟨name, hname⟩ : ∃ name, committer.getD author = name := ⟨_, rfl⟩
  obtain ⟨time, htime⟩ : ∃ time, (if committer.isSome then committerTime else authorTime) = time :=
    ⟨_, rfl⟩
  have hname' : 0 ∉ name ∧ 0x0a ∉ name := by
    rw [← hname]
    cases committer with
    | none => exact hauthor
    | some c => exact hcommitter c rfl
  have htime' : 0 ≤ time ∧ time ≤ INT64_MAX := by
    rw [← htime]
    split
    · exact hctime
    · exact hatime
  rw [hname, htime]
  -- the parts of the content, from the end
  generalize hmsg : trimmed logmsg = msg
  obtain ⟨message, hmessage⟩ : ∃ message : Bytes, message = [0x0a] ++ (msg ++ [0x0a]) := ⟨_, rfl⟩
  obtain ⟨people, hpeople⟩ : ∃ people, people = identLine GOT_COMMIT_LABEL_AUTHOR author authorTime
      ++ (identLine GOT_COMMIT_LABEL_COMMITTER name time ++ message) := ⟨_, rfl⟩
  obtain ⟨content, hcontent⟩ : ∃ content, content = GOT_COMMIT_LABEL_TREE
      ++ (gotSha1DigestToStr treeId ++ 0x0a :: (parentIds.flatMap parentLine ++ people)) := ⟨_, rfl⟩
  have hzero : 0 ∉ message := by
    rw [hmessage, List.mem_append, List.mem_append, ← hmsg]
    rintro (h | h | h)
    · exact absurd h (by decide)
    · exact not_mem_trimmed hlogmsg h
    · exact absurd h (by decide)
  have hnoparent : GOT_COMMIT_LABEL_PARENT.isPrefixOf people = false := by
    rw [hpeople]
    rfl
  refine ⟨content, ⟨treeId, parentIds, some ⟨author, authorTime, 0⟩, some ⟨name, time, 0⟩, message⟩,
    ?_, ?_, rfl, rfl, rfl, rfl, hmessage, hmsg ▸ getLogmsg_trimmed _ (hmsg ▸ hmessage)⟩
  · have hfile : gotObjectCommitCreate treeId parentIds nparents author authorTime committer
        committerTime logmsg = objectHeader (text "commit") (GOT_COMMIT_LABEL_TREE.length
          + SHA1_DIGEST_STRING_LENGTH
          + nparents * (GOT_COMMIT_LABEL_PARENT.length + SHA1_DIGEST_STRING_LENGTH)
          + (identLine GOT_COMMIT_LABEL_AUTHOR author authorTime).length
          + (identLine GOT_COMMIT_LABEL_COMMITTER name time).length + 2 + msg.length)
            ++ content := by
      rw [hcontent, hpeople, hmessage, ← hmsg, ← hname, ← htime]
      unfold gotObjectCommitCreate
      dsimp only
      congr 1
      show _ ++ (parentIds.flatMap parentLine ++ _) = _
      simp only [List.append_assoc, List.cons_append, List.nil_append]
    rw [hfile, hcontent, hpeople, hmessage, hparents]
    congr 2
    simp only [List.length_append, List.length_cons, List.length_nil, length_flatMap_parentLine,
      length_gotSha1DigestToStr]
    rw [SHA1_DIGEST_STRING_LENGTH]
    omega
  · have hbegin : GOT_COMMIT_LABEL_TREE.isPrefixOf content = true := by
      rw [hcontent]
      exact List.isPrefixOf_iff_prefix.mpr (List.prefix_append _ _)
    have hlength := congrArg List.length hcontent
    simp only [List.length_append, List.length_cons, length_flatMap_parentLine] at hlength
    have hfuel : parentIds.length < content.length + 1 := by
      have := Nat.le_mul_of_pos_right parentIds.length
        (show 0 < GOT_COMMIT_LABEL_PARENT.length + SHA1_DIGEST_STRING_LENGTH by decide)
      omega
    unfold gotObjectParseCommit
    dsimp only
    rw [if_neg (by omega), if_neg (by rw [hbegin]; simp)]
    have htree := parseIdLine_append GOT_COMMIT_LABEL_TREE treeId 0x0a
      (parentIds.flatMap parentLine ++ people) (congrArg (fun s : Bytes => (s.length : ℤ)) hcontent)
    rw [← hcontent] at htree
    rw [htree, ok_bind]
    dsimp only
    rw [parseParents_append hfuel hnoparent rfl, ok_bind]
    dsimp only
    rw [hpeople, parseIdentLine?_append _ hauthor.1 hauthor.2 hatime.1 hatime.2 _ rfl, ok_bind]
    dsimp only
    rw [parseIdentLine?_append _ hname'.1 hname'.2 htime'.1 htime'.2 _ rfl, ok_bind]
    dsimp only
    rw [Int.toNat_natCast, List.take_length, takeWhile_of_not_mem hzero]
    rfl

/-- The theorem at work on a commit with one parent. -/
theorem gotObjectParseCommit_create_one :
    ∃ (content : Bytes) (commit : Commit),
      gotObjectCommitCreate someId [someId] 1 (text "A <a>") 5 (some (text "C <c>")) 7 (text " m ")
        = objectHeader (text "commit") content.length ++ content
      ∧ gotObjectParseCommit content = .ok commit
      ∧ commit.treeId = someId ∧ commit.parentIds = [someId]
      ∧ commit.author = some ⟨text "A <a>", 5, 0⟩
      ∧ commit.committer = some ⟨text "C <c>", 7, 0⟩
      ∧ commit.logmsg = 0x0a :: (trimmed (text " m ") ++ [0x0a])
      ∧ gotObjectCommitGetLogmsg commit
        = if trimmed (text " m ") = [] then [0x0a] else 0x0a :: (trimmed (text " m ") ++ [0x0a]) :=
  gotObjectParseCommit_create someId [someId] rfl (by decide) (by decide)
    (fun name hname => by obtain rfl := Option.some.inj hname; decide) (by decide) (by decide)

/-- **The message is not the one that was given**: there are newlines around it. -/
theorem getLogmsg_newlines :
    ∃ (content : Bytes) (commit : Commit),
      gotObjectCommitCreate someId [] 0 (text "A <a>") 5 none 5 (text "m")
        = objectHeader (text "commit") content.length ++ content
      ∧ gotObjectParseCommit content = .ok commit
      ∧ trimmed (text "m") = text "m"
      ∧ commit.logmsg ≠ text "m" ∧ gotObjectCommitGetLogmsg commit = text "\nm\n" :=
  ⟨text ("tree abababababababababababababababababababab\n" ++ "author A <a> 5 +0000\n"
      ++ "committer A <a> 5 +0000\n" ++ "\nm\n"),
    ⟨someId, [], some ⟨text "A <a>", 5, 0⟩, some ⟨text "A <a>", 5, 0⟩, text "\nm\n"⟩,
    rfl, rfl, rfl, by decide, rfl⟩

end ObjectFile

end Got

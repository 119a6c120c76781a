import Got.Lib.Lines
import Got.ObjectFile.Commit

/-!
# Histedit scripts

A histedit script has a line for each commit, with what is to be done with it, and there
may be a line with a log message behind it. The user writes a script in an editor, and
the commands are saved in the same way if the operation is interrupted, to be read
again when it goes on.

Only a message of one line can be written in a script, and without a message there
an editor is opened. What is entered in the editor is a message of any number of lines.
-/

namespace Got

namespace Histedit

open ObjectFile Numeral Lines

/-! ## Objects -/

/-- **An object of the repository.** -/
inductive RepoObject
  | commit (commit : Commit)
  | other

/-- A repository, as far as a script looks at it: what an id stands for. -/
abbrev Repository := Sha1 → Option RepoObject

variable (repo : Repository)

/-- `got_object_open` -/
def gotObjectOpen (id : Sha1) : Except GotErr RepoObject :=
  match repo id with
  | none => .error .noObj
  | some obj => .ok obj

/-- `got_object_open_as_commit` -/
def gotObjectOpenAsCommit (id : Sha1) : Except GotErr Commit :=
  match repo id with
  | none => .error .noObj
  | some .other => .error .objType
  | some (.commit commit) => .ok commit

/-- `got_object_resolve_id_str` -/
def gotObjectResolveIdStr (idStr : Bytes) : Except GotErr Sha1 :=
  match gotParseSha1Digest idStr with
  | none => .error (.badObjIdStr idStr)
  | some id => do
    let _ ← gotObjectOpen repo id
    return id

/-! ## Commands -/

/-- `got_histedit_cmds` -/
inductive HisteditCmd
  | pick
  | edit
  | fold
  | drop
  | mesg
  deriving DecidableEq

/-- The letter of a command in a script. -/
def HisteditCmd.code : HisteditCmd → UInt8
  | pick => 'p'.toUInt8
  | edit => 'e'.toUInt8
  | fold => 'f'.toUInt8
  | drop => 'd'.toUInt8
  | mesg => 'm'.toUInt8

/-- The name of a command in a script. -/
def HisteditCmd.name : HisteditCmd → Bytes
  | pick => text "pick"
  | edit => text "edit"
  | fold => text "fold"
  | drop => text "drop"
  | mesg => text "mesg"

/-- The commands `got histedit` knows, in the order they are tried. -/
def gotHisteditCmds : List HisteditCmd := [.pick, .edit, .fold, .drop, .mesg]

/-- **`struct got_histedit_list_entry`**. A message is not an entry of its own. -/
structure HisteditListEntry where
  cmd : HisteditCmd
  commitId : Sha1
  logmsg : Option CStr
  notMesg : cmd ≠ .mesg

/-! ## Saving -/

/-- `trim_logmsg` -/
def trimLogmsg (logmsg : Bytes) (limit : ℕ) : Bytes := (logmsg.take limit).takeWhile (· ≠ 10)

/-- `get_short_logmsg` -/
def getShortLogmsg (limit : ℕ) (commit : Commit) : Bytes :=
  trimLogmsg (strdup (skipSpace (gotObjectCommitGetLogmsg commit))).val limit

/-- `histedit_write_commit` -/
def histeditWriteCommit (commitId : Sha1) (cmdname : Bytes) : Except GotErr Bytes := do
  let commit ← gotObjectOpenAsCommit repo commitId
  return cmdname ++ 0x20 :: gotSha1DigestToStr commitId ++ 0x20 :: getShortLogmsg 34 commit ++ [10]

/-- The line with the log message. -/
def mesgLine : Option CStr → Bytes
  | none => []
  | some logmsg => HisteditCmd.mesg.code :: 0x20 :: logmsg.val ++ [10]

/-- **`histedit_save_list`** -/
def histeditSaveList : List HisteditListEntry → Except GotErr Bytes
  | [] => .ok []
  | hle :: rest => do
    let line ← histeditWriteCommit repo hle.commitId hle.cmd.name
    let lines ← histeditSaveList rest
    return line ++ mesgLine hle.logmsg ++ lines

/-! ## The editor -/

/-- **What the user makes of a text**: nothing if it was not changed. -/
abbrev Editor := Bytes → Except GotErr (Option Bytes)

/-- The loop of `edit_logmsg` over the lines that were entered. -/
def readLogmsg : List Bytes → Bytes → Bytes
  | [], logmsg => logmsg
  | line :: lines, logmsg =>
    if line.head? = some '#'.toUInt8 ∨ logmsg = [] ∧ line.head? = some 10 then
      readLogmsg lines logmsg
    else readLogmsg lines (logmsg ++ line.takeWhile (· ≠ 0))

/-- `edit_logmsg`, where comments are not checked. -/
def editLogmsg (editor : Editor) (initialContent : Bytes) : Except GotErr CStr := do
  match ← editor initialContent with
  | none => .error .commitMsgEmpty
  | some content =>
    let logmsg := readLogmsg (lines (· = 10) content) []
    let logmsg := (logmsg.reverse.dropWhile (· = 10)).reverse
    if logmsg = [] then .error .commitMsgEmpty else .ok (strdup logmsg)

/-- `append_folded_commit_msg` -/
def appendFoldedCommitMsg (hle : HisteditListEntry) (logmsg : Option Bytes) :
    Except GotErr Bytes := do
  let foldedCommit ← gotObjectOpenAsCommit repo hle.commitId
  return (logmsg.elim [] (· ++ [10])) ++ text "# log message of folded commit "
    ++ gotSha1DigestToStr hle.commitId ++ text ": " ++ gotObjectCommitGetLogmsg foldedCommit

/-- **`get_folded_commits`**: the commits from the first one which is folded, up to the one
given, where those before it are given with the last one first. -/
def getFoldedCommits (before : List HisteditListEntry) : List HisteditListEntry :=
  (before.takeWhile fun prev => prev.cmd = .fold ∨ prev.cmd = .drop).reverse.dropWhile
    fun hle => hle.cmd ≠ .fold

/-- The loop over the folded commits. -/
def foldedLogmsg : List HisteditListEntry → Option Bytes → Except GotErr (Option Bytes)
  | [], logmsg => .ok logmsg
  | folded :: rest, logmsg =>
    if folded.cmd = .drop then foldedLogmsg rest logmsg
    else do
      let newMsg ← appendFoldedCommitMsg repo folded logmsg
      foldedLogmsg rest (some newMsg)

/-- **`histedit_edit_logmsg`**. If the user enters nothing then the message is what the user
was given to edit. -/
def histeditEditLogmsg (editor : Editor) (hle : HisteditListEntry)
    (before : List HisteditListEntry) : Except GotErr CStr := do
  let commit ← gotObjectOpenAsCommit repo hle.commitId
  let logmsg ← foldedLogmsg repo (getFoldedCommits before) none
  let newMsg := logmsg.getD [] ++ text "\n# original log message of commit "
    ++ gotSha1DigestToStr hle.commitId ++ text ": " ++ gotObjectCommitGetLogmsg commit
  match editLogmsg editor newMsg with
  | .error .commitMsgEmpty => .ok (strdup newMsg)
  | res => res

/-! ## Loading -/

/-- `histedit_syntax_error` -/
def histeditSyntaxError (lineno : ℕ) : GotErr :=
  .histeditSyntax (text "histedit syntax error on line " ++ decimal lineno)

/-- The loop over the commands, of which there are two spellings. -/
def matchCmd (p : Bytes) : List HisteditCmd → Option (HisteditCmd × Bytes)
  | [] => none
  | cmd :: cmds =>
    if cmd.name.isPrefixOf p ∧ (p.drop cmd.name.length).head?.any isspace then
      some (cmd, p.drop cmd.name.length)
    else if p.head? = some cmd.code ∧ (p.drop 1).head?.any isspace then some (cmd, p.drop 1)
    else matchCmd p cmds

/-- The message for an entry: what is on the line, or what is entered in an editor. -/
def mesgLogmsg (editor : Editor) (hle : HisteditListEntry) (before : List HisteditListEntry)
    (p : Bytes) : Except GotErr CStr :=
  if p = [] then histeditEditLogmsg repo editor hle before else .ok (strdup p)

/-- **One line of a script**, with the commands that were read before it, the last one
first. -/
def parseLine (editor : Editor) (lineno : ℕ) (cmds : List HisteditListEntry) (line : Bytes) :
    Except GotErr (List HisteditListEntry) :=
  let p := skipSpace (line.takeWhile (· ≠ 0))
  if p.head? = some '#'.toUInt8 ∨ p = [] then .ok cmds
  else
    match matchCmd p gotHisteditCmds with
    | none => .error (histeditSyntaxError lineno)
    | some (cmd, p) =>
      let p := skipSpace p
      if hmesg : cmd = .mesg then
        match cmds with
        | [] => .error .histeditCmd
        | hle :: before =>
          if hle.logmsg.isSome then .error .histeditCmd
          else do
            let logmsg ← mesgLogmsg repo editor hle before p
            return { hle with logmsg := some logmsg } :: before
      else
        match gotObjectResolveIdStr repo (p.takeWhile fun c => ¬isspace c) with
        | .error _ => .error (histeditSyntaxError lineno)
        | .ok commitId => .ok (⟨cmd, commitId, none, hmesg⟩ :: cmds)

/-- The loop over the lines. -/
def parseLoop (editor : Editor) :
    ℕ → List HisteditListEntry → List Bytes → Except GotErr (List HisteditListEntry)
  | _, cmds, [] => .ok cmds
  | lineno, cmds, line :: rest => do
    let cmds ← parseLine repo editor (lineno + 1) cmds line
    parseLoop editor (lineno + 1) cmds rest

/-- **`histedit_parse_list`** -/
def histeditParseList (editor : Editor) (f : Bytes) : Except GotErr (List HisteditListEntry) := do
  let cmds ← parseLoop repo editor 0 [] (lines (· = 10) f)
  return cmds.reverse

end Histedit

end Got

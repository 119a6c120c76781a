import Got.CString
import Got.Privsep.RecvTree

/-!
# Objects in messages

A commit and a tag are sent as a structure of C with the strings behind it, and the log message
follows in messages of its own, each of which is as long as a message can be. The structure is laid
out without padding, so it can be read field by field.

The lengths are numbers that were received. Their sum is compared with the length of the message,
as a `size_t`.
-/

namespace Got

open Records

namespace Privsep

/-- The most that fits into a message. -/
def MAX_DATALEN : ℕ := MAX_IMSGSIZE - IMSG_HEADER_SIZE

/-! ## Log messages -/

/-- The loop of `send_commit_logmsg`, which is also that of `send_tagmsg`. -/
def sendLogmsg (type : ImsgType) : (fuel : ℕ) → (logmsg : Bytes) → Except GotErr (List Imsg)
  | 0, _ => .error .fuel
  | fuel + 1, logmsg =>
    if logmsg.length = 0 then .ok []
    else do
      let n := min MAX_DATALEN logmsg.length
      let imsg ← imsgCompose type (logmsg.take n)
      let imsgs ← sendLogmsg type fuel (logmsg.drop n)
      return imsg :: imsgs

/-- The loop in which `remain` bytes of a log message are received. -/
def recvLogmsg (type : ImsgType) : (fuel remain : ℕ) → ImsgBuf → Except GotErr (Bytes × ImsgBuf)
  | 0, _, _ => .error .fuel
  | fuel + 1, remain, ibuf =>
    if remain = 0 then .ok ([], ibuf)
    else do
      let n := min MAX_DATALEN remain
      let (imsg, ibuf) ← gotPrivsepRecvImsg ibuf n
      if imsg.type ≠ type then throw .privsepMsg
      let (logmsg, ibuf) ← recvLogmsg type fuel (remain - n) ibuf
      return (imsg.data.take n ++ logmsg, ibuf)

/-! ## Commits -/

/-- `struct got_commit_object` -/
structure GotCommitObject where
  treeId : Sha1
  parentIds : List Sha1
  author : CStr
  authorTime : Int64
  authorGmtoff : Int64
  committer : CStr
  committerTime : Int64
  committerGmtoff : Int64
  logmsg : CStr
  deriving DecidableEq

/-- `struct got_imsg_commit_object` -/
structure GotImsgCommitObject where
  treeId : Sha1
  authorLen : UInt64
  authorTime : Int64
  authorGmtoff : Int64
  committerLen : UInt64
  committerTime : Int64
  committerGmtoff : Int64
  logmsgLen : UInt64
  nparents : Int32

/-- The size of it. -/
def sizeofImsgCommit : ℕ := 80

/-- The bytes of it. -/
def GotImsgCommitObject.bytes (icommit : GotImsgCommitObject) : Bytes :=
  icommit.treeId.val ++ sizeBytes icommit.authorLen ++ timeBytes icommit.authorTime ++
    timeBytes icommit.authorGmtoff ++ sizeBytes icommit.committerLen ++
    timeBytes icommit.committerTime ++ timeBytes icommit.committerGmtoff ++
    sizeBytes icommit.logmsgLen ++ intBytes icommit.nparents

/-- The structure at the start of some bytes, and what is behind it. -/
def readImsgCommit (data : Bytes) : Except GotErr (GotImsgCommitObject × Bytes) := do
  let (treeId, data) ← readField .privsepLen SHA1_DIGEST_LENGTH oidOf data
  let (authorLen, data) ← readField .privsepLen 8 readSize data
  let (authorTime, data) ← readField .privsepLen 8 readTime data
  let (authorGmtoff, data) ← readField .privsepLen 8 readTime data
  let (committerLen, data) ← readField .privsepLen 8 readSize data
  let (committerTime, data) ← readField .privsepLen 8 readTime data
  let (committerGmtoff, data) ← readField .privsepLen 8 readTime data
  let (logmsgLen, data) ← readField .privsepLen 8 readSize data
  let (nparents, data) ← readField .privsepLen 4 readInt data
  return (⟨treeId, authorLen, authorTime, authorGmtoff, committerLen, committerTime,
    committerGmtoff, logmsgLen, nparents⟩, data)

/-- What is sent of a commit in front of its strings. -/
def GotCommitObject.imsg (commit : GotCommitObject) : GotImsgCommitObject where
  treeId := commit.treeId
  authorLen := commit.author.val.length.toUInt64
  authorTime := commit.authorTime
  authorGmtoff := commit.authorGmtoff
  committerLen := commit.committer.val.length.toUInt64
  committerTime := commit.committerTime
  committerGmtoff := commit.committerGmtoff
  logmsgLen := commit.logmsg.val.length.toUInt64
  nparents := commit.parentIds.length.toInt32

/-- **`got_privsep_send_commit`**: the messages that are sent. -/
def gotPrivsepSendCommit (commit : GotCommitObject) : Except GotErr (List Imsg) := do
  let buf := commit.imsg.bytes ++ commit.author.val ++ commit.committer.val ++
    commit.parentIds.flatMap Subtype.val
  let imsg ← imsgCompose .commit buf
  let imsgs ← sendLogmsg .commitLogmsg (commit.logmsg.val.length + 1) commit.logmsg.val
  return imsg :: imsgs

/-- The length that a message should have, as a `size_t`. The product is an `int`. -/
def GotImsgCommitObject.datalen (icommit : GotImsgCommitObject) : UInt64 :=
  80 + icommit.authorLen + icommit.committerLen + (icommit.nparents * 20).toInt64.toUInt64

/-- `get_commit_from_imsg`. Copying what is not in the message is an error. -/
def getCommitFromImsg (imsg : Imsg) (ibuf : ImsgBuf) : Except GotErr GotCommitObject := do
  if imsg.data.length < sizeofImsgCommit then throw .privsepLen
  let (icommit, data) ← readImsgCommit imsg.data
  if imsg.data.length.toUInt64 ≠ icommit.datalen then throw .privsepLen
  if icommit.nparents.toInt < 0 then throw .privsepLen
  let (author, data) ← next .outOfMap icommit.authorLen.toNat data
  let (committer, data) ← next .outOfMap icommit.committerLen.toNat data
  let (logmsg, _) ← recvLogmsg .commitLogmsg
    (icommit.logmsgLen.toNat + 1) icommit.logmsgLen.toNat ibuf
  let (parentIds, _) ← readTable .outOfMap SHA1_DIGEST_LENGTH oidOf
    icommit.nparents.toInt.toNat data
  return ⟨icommit.treeId, parentIds, strdup author, icommit.authorTime, icommit.authorGmtoff,
    strdup committer, icommit.committerTime, icommit.committerGmtoff, strdup logmsg⟩

/-- **`got_privsep_recv_commit`** -/
def gotPrivsepRecvCommit (ibuf : ImsgBuf) : Except GotErr (Option GotCommitObject) := do
  let (imsg, ibuf) ← gotPrivsepRecvImsg ibuf (min sizeofImsgError sizeofImsgCommit)
  match imsg.type with
  | .commit => some <$> getCommitFromImsg imsg ibuf
  | _ => throw .privsepMsg

/-! ## Tags -/

/-- `struct got_tag_object` -/
structure GotTagObject where
  id : Sha1
  objType : Int32
  tag : CStr
  taggerTime : Int64
  taggerGmtoff : Int64
  tagger : CStr
  tagmsg : CStr
  deriving DecidableEq

/-- `struct got_imsg_tag_object` -/
structure GotImsgTagObject where
  id : Sha1
  objType : Int32
  tagLen : UInt64
  taggerLen : UInt64
  taggerTime : Int64
  taggerGmtoff : Int64
  tagmsgLen : UInt64

/-- The size of it. -/
def sizeofImsgTag : ℕ := 64

/-- The bytes of it. -/
def GotImsgTagObject.bytes (itag : GotImsgTagObject) : Bytes :=
  itag.id.val ++ intBytes itag.objType ++ sizeBytes itag.tagLen ++ sizeBytes itag.taggerLen ++
    timeBytes itag.taggerTime ++ timeBytes itag.taggerGmtoff ++ sizeBytes itag.tagmsgLen

/-- The structure at the start of some bytes, and what is behind it. -/
def readImsgTag (data : Bytes) : Except GotErr (GotImsgTagObject × Bytes) := do
  let (id, data) ← readField .privsepLen SHA1_DIGEST_LENGTH oidOf data
  let (objType, data) ← readField .privsepLen 4 readInt data
  let (tagLen, data) ← readField .privsepLen 8 readSize data
  let (taggerLen, data) ← readField .privsepLen 8 readSize data
  let (taggerTime, data) ← readField .privsepLen 8 readTime data
  let (taggerGmtoff, data) ← readField .privsepLen 8 readTime data
  let (tagmsgLen, data) ← readField .privsepLen 8 readSize data
  return (⟨id, objType, tagLen, taggerLen, taggerTime, taggerGmtoff, tagmsgLen⟩, data)

/-- What is sent of a tag in front of its strings. -/
def GotTagObject.imsg (tag : GotTagObject) : GotImsgTagObject where
  id := tag.id
  objType := tag.objType
  tagLen := tag.tag.val.length.toUInt64
  taggerLen := tag.tagger.val.length.toUInt64
  taggerTime := tag.taggerTime
  taggerGmtoff := tag.taggerGmtoff
  tagmsgLen := tag.tagmsg.val.length.toUInt64

/-- **`got_privsep_send_tag`**: the messages that are sent. -/
def gotPrivsepSendTag (tag : GotTagObject) : Except GotErr (List Imsg) := do
  let imsg ← imsgCompose .tag (tag.imsg.bytes ++ tag.tag.val ++ tag.tagger.val)
  let imsgs ← sendLogmsg .tagTagmsg (tag.tagmsg.val.length + 1) tag.tagmsg.val
  return imsg :: imsgs

/-- **`got_privsep_recv_tag`** -/
def gotPrivsepRecvTag (ibuf : ImsgBuf) : Except GotErr (Option GotTagObject) := do
  let (imsg, ibuf) ← gotPrivsepRecvImsg ibuf (min sizeofImsgError sizeofImsgTag)
  match imsg.type with
  | .tag =>
    if imsg.data.length < sizeofImsgTag then throw .privsepLen
    let (itag, data) ← readImsgTag imsg.data
    if imsg.data.length.toUInt64 ≠ 64 + itag.tagLen + itag.taggerLen then throw .privsepLen
    let (tag, data) ← next .outOfMap itag.tagLen.toNat data
    let (tagger, _) ← next .outOfMap itag.taggerLen.toNat data
    let (tagmsg, _) ← recvLogmsg .tagTagmsg (itag.tagmsgLen.toNat + 1) itag.tagmsgLen.toNat ibuf
    return some ⟨itag.id, itag.objType, strdup tag, itag.taggerTime, itag.taggerGmtoff,
      strdup tagger, strdup tagmsg⟩
  | _ => throw .privsepMsg

/-! ## Trees -/

/-- `struct got_parsed_tree_entry`, with its path. -/
structure ParsedEntry where
  id : Sha1
  mode : UInt32
  name : CStr
  deriving DecidableEq

/-- A turn of the loop of `got_privsep_send_tree`. -/
def sendTreeEntry (pte : ParsedEntry) : Except GotErr Imsg := do
  let len := sizeofImsgTreeEntry + pte.name.val.length
  if len > MAX_IMSGSIZE then throw .noSpace
  imsgCompose .treeEntry (pte.id.val ++ modeBytes pte.mode ++ pte.name.val)

/-- **`got_privsep_send_tree`**: the messages that are sent. They are flushed on the way, which
makes no difference to them. -/
def gotPrivsepSendTree (entries : List ParsedEntry) (nentries : Int32) :
    Except GotErr (List Imsg) := do
  let imsg ← imsgCompose .tree (intBytes nentries)
  let imsgs ← entries.mapM sendTreeEntry
  return imsg :: imsgs

end Privsep

end Got

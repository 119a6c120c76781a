import Got.FetchPack.PackData
import Got.ObjectFile.Text
import Got.Privsep.Imsg

/-!
# The references of a server

A server begins with the references it has, one in each packet. The first packet also tells
what the server is capable of, and with it which symbolic references there are. The program
selects from these references, reports those that it selects to the main process and asks for
the objects which they point to.

The packets are read into a buffer that is not emptied, so behind a packet there is what was there
before. A line is taken apart up to the next zero, wherever that is; so a packet comes with the
bytes that are between it and this zero.
-/

namespace Got

open ObjectFile Privsep

namespace FetchPack

/-- **A packet in the buffer**, and what is behind it up to the next zero. -/
structure RefPacket where
  bytes : Bytes
  behind : Bytes

/-- A reference. -/
abbrev Ref := Sha1 × Bytes

/-- **What is to be fetched.** -/
structure Filters where
  fetchAllBranches : Bool
  wantedBranches : List Bytes
  wantedRefs : List Bytes
  listRefsOnly : Bool

/-! ## Matching names -/

/-- The directories that references are kept in. -/
def refsPrefix : Bytes := text "refs/"
def headsPrefix : Bytes := text "refs/heads/"
def tagsPrefix : Bytes := text "refs/tags/"

/-- Leave out a prefix, if it is there. -/
def withoutPrefix (pre name : Bytes) : Bytes :=
  if pre.isPrefixOf name then name.drop pre.length else name

/-- `match_branch` -/
def matchBranch (branch wantedBranch : Bytes) : Bool :=
  headsPrefix.isPrefixOf branch ∧
    branch.drop headsPrefix.length = withoutPrefix headsPrefix wantedBranch

/-- `got_path_is_child` -/
def pathIsChild (child parent : Bytes) : Bool :=
  parent.all (· = 0x2f) ∨ parent.isPrefixOf child ∧ child[parent.length]? = some 0x2f

/-- **`match_wanted_ref`** -/
def matchWantedRef (refname wantedRef : Bytes) : Bool :=
  refsPrefix.isPrefixOf refname ∧
    let refname := refname.drop refsPrefix.length
    let wantedRef := withoutPrefix refsPrefix wantedRef
    ¬ (text "got/").isPrefixOf refname ∧ ¬ (text "remotes/").isPrefixOf refname ∧
      (pathIsChild refname wantedRef ∨ refname = wantedRef)

/-! ## Lines -/

/-- The loop of `tokenize_refline`, which has gone over `n` bytes. -/
def tokenizeRefline (len : ℕ) : (left : ℕ) → (line : Bytes) → (n : ℕ) → List Bytes
  | 0, _, _ => []
  | left + 1, line, n =>
    if n < len then
      let spaces := line.takeWhile isspace
      let line := line.drop spaces.length
      let token := line.takeWhile fun c => c ≠ 0 ∧ (isspace c = false ∨ left = 0)
      let line := line.drop token.length
      let n := n + spaces.length + token.length
      let zeros := min (line.takeWhile (· = 0)).length (len - n)
      token :: tokenizeRefline len left (line.drop zeros) (n + zeros)
    else []

/-- **`parse_refline`**: the id, the name, and the capabilities of the server. -/
def parseRefline (packet : RefPacket) : Except GotErr (Bytes × Bytes × Bytes) :=
  match tokenizeRefline packet.bytes.length 3 (packet.bytes ++ packet.behind) 0 with
  | [idStr, refname, capabilities] =>
    match strrchr capabilities 0x0a with
    | some (before, _) => .ok (idStr, refname, before)
    | none => .ok (idStr, refname, capabilities)
  | _ => .error .notRef

/-! ## Symbolic references -/

/-- `add_symref`: the name and the target. -/
def addSymref (capa : Bytes) : Option (Bytes × Bytes) :=
  if capa.length < 3 ∨ 0x3a ∉ capa then none
  else some (capa.takeWhile (· ≠ 0x3a), (capa.dropWhile (· ≠ 0x3a)).tail)

/-- The symbolic references that `match_capabilities` finds. -/
def symrefsOf (capabilities : Bytes) : List (Bytes × Bytes) :=
  (capabilities.splitOn 0x20).filterMap fun capa =>
    if 0x3d ∈ capa ∧ (capa.takeWhile (· ≠ 0x3d)).isPrefixOf (text "symref") then
      addSymref (capa.dropWhile (· ≠ 0x3d)).tail
    else none

/-- `send_fetch_symrefs` fails if the message would be too long. -/
def symrefsFit (symrefs : List (Bytes × Bytes)) : Bool :=
  8 + (symrefs.map fun symref => 16 + symref.1.length + symref.2.length).sum <
    MAX_IMSGSIZE - IMSG_HEADER_SIZE

/-- The branch to which the `HEAD` of the server points. -/
def defaultBranch (f : Filters) (symrefs : List (Bytes × Bytes)) : Option Bytes :=
  if f.fetchAllBranches then none
  else (symrefs.find? (·.1 = text "HEAD")).map Prod.snd

/-! ## The loop -/

/-- **The conditions under which a reference is taken**: whether it is, and if so whether a branch
has been found with it. -/
def takesRef (f : Filters) (default : Option Bytes) (refname : Bytes) : Option Bool :=
  if headsPrefix.isPrefixOf refname then
    if f.fetchAllBranches ∨ f.listRefsOnly then some true
    else if f.wantedBranches ≠ [] then
      if f.wantedBranches.any (matchBranch refname) then some true else none
    else
      match default with
      | some branch => if matchBranch refname branch then some true else none
      | none => some false
  else if ¬ tagsPrefix.isPrefixOf refname then
    if f.wantedRefs ≠ [] then
      if f.wantedRefs.any (matchWantedRef refname) then some true else none
    else if ¬ f.listRefsOnly then none
    else some false
  else some false

/-- Whether `send_fetch_ref` can send a name. -/
def refFits (refname : Bytes) : Bool :=
  SHA1_DIGEST_LENGTH + refname.length < MAX_IMSGSIZE - IMSG_HEADER_SIZE

/-- `strstr(refname, "^{}")` -/
def isPeeled (refname : Bytes) : Bool := refname.tails.any (text "^{}").isPrefixOf

/-- **The loop of `fetch_pack` behind the first packet**: what is reported, and whether a branch has
been found, unless it fails. -/
def readRefs (f : Filters) (default : Option Bytes) :
    List RefPacket → (foundBranch : Bool) → List Ref × Except GotErr Bool
  | [], foundBranch => ([], .ok foundBranch)
  | packet :: packets, foundBranch =>
    if (text "ERR ").isPrefixOf packet.bytes then ([], .error (fetchError (packet.bytes.drop 4)))
    else match parseRefline packet with
      | .error e => ([], .error e)
      | .ok (idStr, refname, _) =>
        if isPeeled refname then readRefs f default packets foundBranch
        else match takesRef f default refname with
          | none => readRefs f default packets foundBranch
          | some found =>
            match gotParseSha1Digest idStr with
            | none => ([], .error (.badObjIdStr []))
            | some id =>
              if ¬ refFits refname then ([], .error .noSpace)
              else
                let (refs, result) := readRefs f default packets (foundBranch || found)
                ((id, refname) :: refs, result)

/-- `match_remote_ref`: what is there already, or a zero. -/
def matchRemoteRef (haveRefs : List (Bytes × Sha1)) (refname : Bytes) : Sha1 :=
  ((haveRefs.find? (·.1 = refname)).map Prod.snd).getD (oidOf [])

/-- What is asked for, once all references are read. -/
def requestRefs (f : Filters) (haveRefs : List (Bytes × Sha1)) (refs : List Ref)
    (foundBranch : Bool) :
    Except GotErr (List Sha1) :=
  if f.listRefsOnly then .ok []
  else if ¬ foundBranch then .error .fetchNoBranch
  else .ok ((refs.filter fun ref => matchRemoteRef haveRefs ref.2 ≠ ref.1).map Prod.fst)

/-- **The part of `fetch_pack` that is about references**: what is reported to the main process, and
what is asked for. The capabilities that are sent along are left out. -/
def fetchPackRefs (f : Filters) (haveRefs : List (Bytes × Sha1)) :
    List RefPacket → List Ref × Except GotErr (List Sha1)
  | [] => ([], requestRefs f haveRefs [] false)
  | packet :: packets =>
    if (text "ERR ").isPrefixOf packet.bytes then ([], .error (fetchError (packet.bytes.drop 4)))
    else match parseRefline packet with
      | .error e => ([], .error e)
      | .ok (_, _, capabilities) =>
        let symrefs := symrefsOf capabilities
        if ¬ symrefsFit symrefs then ([], .error .noSpace)
        else
          let (refs, result) := readRefs f (defaultBranch f symrefs) packets false
          (refs, result >>= requestRefs f haveRefs refs)

end FetchPack

end Got

import Got.Lib.Action
import Got.Lib.Lines
import Got.ObjectFile.Text

/-!
# References on disk

A reference is a file below the directory of the repository, which is called loose, or it is a
line of the file `packed-refs`. A loose file shadows a line of the same name.

References may be named without the directory they are in. Loose files are then looked for
in one directory after the other, while each line of `packed-refs` is compared with the name in
all of the directories before the next line is read.

Locks are left out, as are errors of the operating system other than that a file is missing.
The names of files are as they are written, so that a file has one name only.
-/

namespace Got

open Lines ObjectFile

/-- What a reference points at. -/
inductive RefTarget
  | oid (id : Sha1)
  | symref (ref : Bytes)
  deriving DecidableEq

/-- `struct got_reference`, without its lock. -/
structure DiskRef where
  name : Bytes
  target : RefTarget
  /-- `GOT_REF_IS_PACKED` -/
  isPacked : Bool
  deriving DecidableEq

/-- **The references of a repository.** Files have names below its directory. -/
structure RefStore where
  /-- The files which can be read. -/
  files : List (Bytes × Bytes)
  packedRefs : Option Bytes

def GOT_REF_HEADS : Bytes := text "heads"
def GOT_REF_TAGS : Bytes := text "tags"
def GOT_REF_REMOTES : Bytes := text "remotes"

def GOT_PACKED_REFS_HEADER : Bytes := text "# pack-refs with:"

namespace RefStore

/-! ## Strings in a buffer -/

/-- The end of a line. -/
def isNewline (c : UInt8) : Bool := c = 0x0a

/-- The string which begins at some place of a buffer. -/
def stringAt (buf : Bytes) (i : ℕ) : Except GotErr Bytes :=
  if i < buf.length then .ok ((buf.drop i).takeWhile (· ≠ 0)) else .error .outOfMap

/-- The buffer in which `getline(3)` has put a line, whose newline has been overwritten. -/
def lineBuffer (line : Bytes) : Bytes :=
  if line.getLast? = some 0x0a then line.dropLast ++ [0, 0] else line ++ [0]

/-! ## Loose references -/

/-- `parse_symref` -/
def parseSymref (name line : Bytes) : Except GotErr DiskRef :=
  if line = [] then .error .badRefData else .ok ⟨name, .symref line, false⟩

/-- `parse_ref_line` -/
def parseRefLine (name line : Bytes) : Except GotErr DiskRef :=
  if text "ref: " <+: line then parseSymref name (line.drop 5)
  else
    match gotParseSha1Digest line with
    | none => .error .badRefData
    | some id => .ok ⟨name, .oid id, false⟩

/-- The contents of a file. -/
def file (store : RefStore) (path : Bytes) : Option Bytes := store.files.lookup path

/-- What `parse_ref_file` finds in a file. There is nothing in an empty file, which could be a
lock. -/
def parseRefContent (absname content : Bytes) : Except GotErr (Option DiskRef) :=
  match lines isNewline content with
  | [] => .ok none
  | line :: _ => (parseRefLine absname ((lineBuffer line).takeWhile (· ≠ 0))).map some

/-- `parse_ref_file` -/
def parseRefFile (store : RefStore) (absname abspath : Bytes) : Except GotErr (Option DiskRef) :=
  match store.file abspath with
  | none => .error .notRef
  | some content => parseRefContent absname content

/-- `is_well_known_ref` -/
def isWellKnownRef (refname : Bytes) : Bool :=
  refname = text "HEAD" ∨ refname = text "ORIG_HEAD" ∨ refname = text "MERGE_HEAD" ∨
    refname = text "FETCH_HEAD"

/-- A reference which is named with its directory. -/
def isAbsolute (refname : Bytes) : Bool := text "refs/" <+: refname

/-- `get_refs_dir_path`, below the directory of the repository. -/
def getRefsDirPath (refname : Bytes) : Bytes :=
  if isWellKnownRef refname ∨ isAbsolute refname then [] else text "/refs"

/-- The name of a reference in one of the directories. -/
def absRefname (subdir refname : Bytes) : Bytes :=
  if isAbsolute refname then refname else text "refs/" ++ (subdir ++ 0x2f :: refname)

/-- `open_ref`. A reference which is well known is looked for without a directory. -/
def openRef (store : RefStore) (pathRefs subdir name : Bytes) : Except GotErr (Option DiskRef) :=
  if isAbsolute name ∨ (subdir = [] ∧ isWellKnownRef name) then
    parseRefFile store name (pathRefs ++ 0x2f :: name)
  else if subdir = [] then
    parseRefFile store (text "refs/" ++ name) (pathRefs ++ 0x2f :: name)
  else parseRefFile store (absRefname subdir name) (pathRefs ++ 0x2f :: (subdir ++ 0x2f :: name))

/-- The directories in which references are looked for. -/
def subdirs : List Bytes := [GOT_REF_HEADS, GOT_REF_TAGS, GOT_REF_REMOTES]

/-- The loop of `got_ref_open` over the directories. -/
def openLoose (store : RefStore) (pathRefs refname : Bytes) :
    List Bytes → Except GotErr (Option DiskRef)
  | [] => .ok none
  | subdir :: rest =>
    match openRef store pathRefs subdir refname with
    | .error .notRef => openLoose store pathRefs refname rest
    | .error e => .error e
    | .ok none => openLoose store pathRefs refname rest
    | .ok (some ref) => .ok (some ref)

/-! ## Packed references -/

/-- `parse_packed_ref_line` -/
def parsePackedRefLine (absRefname : Option Bytes) (line : Bytes) :
    Except GotErr (Option DiskRef) :=
  if line.head? = some 0x23 ∨ line.head? = some 0x5e then .ok none
  else
    match gotParseSha1Digest line with
    | none => .error .badRefData
    | some id => do
      let name ← stringAt line SHA1_DIGEST_STRING_LENGTH
      match absRefname with
      | none => return some ⟨name, .oid id, true⟩
      | some absRefname => return if name = absRefname then some ⟨name, .oid id, true⟩ else none

/-- A line is compared with the name in each of the directories. -/
def openPackedLine (refname line : Bytes) : List Bytes → Except GotErr (Option DiskRef)
  | [] => .ok none
  | subdir :: rest => do
    match ← parsePackedRefLine (some (absRefname subdir refname)) line with
    | some ref => return some ref
    | none => openPackedLine refname line rest

/-- `open_packed_ref` -/
def openPackedRef (refname : Bytes) : List Bytes → Except GotErr (Option DiskRef)
  | [] => .ok none
  | line :: rest => do
    match ← openPackedLine refname (lineBuffer line) subdirs with
    | some ref => return some ref
    | none => openPackedRef refname rest

/-- The references are looked for in `packed-refs`, if there is such a file. -/
def openPacked (store : RefStore) (refname : Bytes) : Except GotErr (Option DiskRef) :=
  match store.packedRefs with
  | none => .ok none
  | some content => openPackedRef refname (lines isNewline content)

/-- What was found, at the end of `got_ref_open`. -/
def found : Option DiskRef → Except GotErr DiskRef
  | none => .error .notRef
  | some ref => .ok ref

/-- **`got_ref_open`** -/
def gotRefOpen (store : RefStore) (refname : Bytes) : Except GotErr DiskRef := do
  if isWellKnownRef refname then
    found (← openRef store (getRefsDirPath refname) [] refname)
  else
    match ← openLoose store (getRefsDirPath refname) refname subdirs with
    | some ref => return ref
    | none => found (← openPacked store refname)

end RefStore

end Got

import Got.Worktree.Commitable

/-!
# Writing the tree of a commit

`write_tree` makes the tree of a new commit out of that of the branch head and
a list of files to be committed. It does so for one directory, given by its
path, and calls itself for subdirectories. Files that were added come first:
they may need directories that the base tree does not have. Then the entries of
the base tree are copied, changed, or left out.

A file that has found its place is reported to a callback, and what was
reported so far is handed through all calls here. It is also how an added file
is known not to be looked at again (`GOT_COMMITABLE_ADDED`).
-/

namespace Got

/-- What is at the end of a pointer. -/
def deref {α : Type} : Option α → Except GotErr α
  | some a => .ok a
  | none => .error .outOfMap

/-- `strlcpy` of a name into a tree entry. -/
def copyName (s : Str) : Except GotErr Name :=
  if NAME_MAX + 1 ≤ s.length then .error .noSpace
  else if h : s ≠ [] ∧ '/' ∉ s then .ok ⟨s, h⟩
  else .error .badPath

/-- Whether a file is in a directory itself. -/
def matchCtParentPath (ct : Commitable) (path : Str) : Except GotErr Bool :=
  if '/' ∉ ct.inRepoPath then .ok (gotPathIsRootDir path)
  else do
    let ctParentPath ← gotPathDirname ct.inRepoPath
    return path = ctParentPath

/-- The mode a commitable is committed with: a symlink stays one, a file keeps its permissions. -/
def getCtFileMode (ct : Commitable) : UInt32 :=
  if S_ISLNK ct.mode then S_IFLNK else S_IFREG ||| (ct.mode &&& S_IRWX)

/-- The entry of a modified blob: its mode and id are new. -/
def allocModifiedBlobTreeEntry (te : TreeEntry) (ct : Commitable) : Except GotErr TreeEntry := do
  let id ← deref (if ct.stagedStatus = .modify then ct.stagedBlobId else ct.blobId)
  return { te with mode := getCtFileMode ct, id }

/-- The entry of an added blob, under the last name of its path. -/
def allocAddedBlobTreeEntry (ct : Commitable) : Except GotErr TreeEntry := do
  let ctName ← gotPathBasename ct.path
  let name ← copyName ctName
  let id ← deref (if ct.stagedStatus = .add then ct.stagedBlobId else ct.blobId)
  return { mode := getCtFileMode ct, name, id }

/-- Inserts an entry into a tree; a name that is there already is an error. -/
def insertTreeEntry (newTe : TreeEntry) (paths : List TreeEntry) :
    Except GotErr (List TreeEntry) :=
  match gotPathlistInsert (fun te => te.name.val) paths newTe with
  | none => .error .treeDupEntry
  | some paths => .ok paths

/-- Whether some file is below an entry. -/
def matchModifiedSubtree (te : TreeEntry) (baseTreePath : Str) (cts : List Commitable) : Bool :=
  cts.any (fun ct => gotPathIsChild ct.inRepoPath (joinPath baseTreePath te.name.val))

/-- Whether a file is added. -/
def Commitable.isAdd (ct : Commitable) : Bool := ct.status = .add ∨ ct.stagedStatus = .add

/-- Whether a file is deleted or modified. -/
def Commitable.isDeletedOrModified (ct : Commitable) : Bool :=
  if ct.stagedStatus = .noChange then
    ct.status = .modify ∨ ct.status = .modeChange ∨ ct.status = .delete
  else ct.stagedStatus = .modify ∨ ct.stagedStatus = .delete

/-- Whether such a file is modified. -/
def Commitable.isModified (ct : Commitable) : Bool :=
  ct.status = .modify ∨ ct.status = .modeChange ∨ ct.stagedStatus = .modify

/-- **The file that changes an entry of the base tree**, if there is one. -/
def matchDeletedOrModifiedCt (te : TreeEntry) (baseTreePath : Str) :
    List Commitable → Except GotErr (Option Commitable)
  | [] => .ok none
  | ct :: cts =>
    if ¬ct.isDeletedOrModified then matchDeletedOrModifiedCt te baseTreePath cts
    else do
      let baseBlobId ← deref ct.baseBlobId
      if baseBlobId ≠ te.id then matchDeletedOrModifiedCt te baseTreePath cts
      else do
        let pathMatches ← matchCtParentPath ct baseTreePath
        if ¬pathMatches then matchDeletedOrModifiedCt te baseTreePath cts
        else do
          let ctName ← gotPathBasename ct.path
          if te.name.val ≠ ctName then matchDeletedOrModifiedCt te baseTreePath cts
          else return some ct

/-- What a call of `write_tree` gives: the new tree, the number of its entries,
and the files that were reported. -/
abbrev NewTree := Object × ℕ × List Commitable

/-- `write_tree` for some directory, given the entries of the base tree, if
there is one, and its path. -/
abbrev WriteTree := Option (List TreeEntry) → Str → List Commitable → Except GotErr NewTree

/-- The subtree of an added blob, written without a base tree. -/
def makeSubtreeForAddedBlob (writeTree : WriteTree) (childPath pathBaseTree : Str)
    (reported : List Commitable) : Except GotErr (TreeEntry × List Commitable) := do
  let name ← copyName childPath
  let (id, _, reported) ← writeTree none (joinPath pathBaseTree childPath) reported
  return ({ mode := S_IFDIR, name, id }, reported)

/-- Writes the subtree of an entry, with what it is now as the base. -/
def writeSubtree (writeTree : WriteTree) (te : TreeEntry) (parentPath : Str)
    (reported : List Commitable) : Except GotErr NewTree := do
  let subtree ← gotObjectOpenAsTree te.id
  writeTree (some subtree) (joinPath parentPath te.name.val) reported

/-- **The first loop**: insert, and recurse into, newly added entries. -/
def addedEntries (writeTree : WriteTree) (baseTree : Option (List TreeEntry))
    (pathBaseTree : Str) :
    List Commitable → List TreeEntry → List Commitable →
      Except GotErr (List TreeEntry × List Commitable)
  | [], paths, reported => .ok (paths, reported)
  | ct :: cts, paths, reported =>
    if ¬ct.isAdd ∨ ct ∈ reported then
      addedEntries writeTree baseTree pathBaseTree cts paths reported
    else if ¬gotPathIsChild ct.inRepoPath pathBaseTree then
      addedEntries writeTree baseTree pathBaseTree cts paths reported
    else do
      let childPath ← gotPathSkipCommonAncestor pathBaseTree ct.inRepoPath
      if '/' ∉ childPath then do
        let newTe ← allocAddedBlobTreeEntry ct
        let paths ← insertTreeEntry newTe paths
        addedEntries writeTree baseTree pathBaseTree cts paths (reported ++ [ct])
      else
        -- trim trailing path components
        let childPath := childPath.takeWhile (· ≠ '/')
        if (baseTree.bind (fun es => findEntryByName es childPath)).isSome then
          addedEntries writeTree baseTree pathBaseTree cts paths reported
        else do
          let (newTe, reported) ← makeSubtreeForAddedBlob writeTree childPath pathBaseTree reported
          let paths ← insertTreeEntry newTe paths
          addedEntries writeTree baseTree pathBaseTree cts paths reported

/-- **The second loop**: handle modified and deleted entries. -/
def baseEntries (writeTree : WriteTree) (cts : List Commitable) (pathBaseTree : Str) :
    List TreeEntry → List TreeEntry → List Commitable →
      Except GotErr (List TreeEntry × List Commitable)
  | [], paths, reported => .ok (paths, reported)
  | te :: es, paths, reported =>
    if te.isSubmodule then do
      let paths ← insertTreeEntry te paths
      baseEntries writeTree cts pathBaseTree es paths reported
    else if S_ISDIR te.mode then
      if matchModifiedSubtree te pathBaseTree cts then do
        let (newId, nsubentries, reported) ← writeSubtree writeTree te pathBaseTree reported
        if nsubentries = 0 then
          baseEntries writeTree cts pathBaseTree es paths reported
        else do
          let paths ← insertTreeEntry { te with id := newId } paths
          baseEntries writeTree cts pathBaseTree es paths reported
      else do
        -- avoid recursion into unmodified subtrees
        let paths ← insertTreeEntry te paths
        baseEntries writeTree cts pathBaseTree es paths reported
    else do
      let ct ← matchDeletedOrModifiedCt te pathBaseTree cts
      match ct with
      | some ct =>
        if ct.isModified then do
          let newTe ← allocModifiedBlobTreeEntry te ct
          let paths ← insertTreeEntry newTe paths
          baseEntries writeTree cts pathBaseTree es paths (reported ++ [ct])
        else
          -- deleted entries get dropped here
          baseEntries writeTree cts pathBaseTree es paths (reported ++ [ct])
      | none => do
        let paths ← insertTreeEntry te paths
        baseEntries writeTree cts pathBaseTree es paths reported

/-- Without a base tree, all entries are newly added ones. -/
def handleBaseTree (writeTree : WriteTree) (cts : List Commitable)
    (baseTree : Option (List TreeEntry)) (pathBaseTree : Str) (paths : List TreeEntry)
    (reported : List Commitable) : Except GotErr (List TreeEntry × List Commitable) :=
  match baseTree with
  | none => .ok (paths, reported)
  | some es => baseEntries writeTree cts pathBaseTree es paths reported

/-- **`write_tree`**, with a bound on how deep it may call itself. Each entry of
the list of paths was counted when it was inserted. -/
def writeTree (cts : List Commitable) : ℕ → WriteTree
  | 0 => fun _ _ _ => .error .fuel
  | fuel + 1 => fun baseTree pathBaseTree reported => do
    let (paths, reported) ←
      addedEntries (writeTree cts fuel) baseTree pathBaseTree cts [] reported
    let (paths, reported) ←
      handleBaseTree (writeTree cts fuel) cts baseTree pathBaseTree paths reported
    let newTreeId ← gotObjectTreeCreate paths
    return (newTreeId, paths.length, reported)

/-- No path is longer than this. -/
def depth (cts : List Commitable) : ℕ := (cts.map (fun ct => ct.names.length)).foldr max 0

/-- **The tree of a commit**, as `commit_worktree` makes it of the tree of the
branch head. -/
def writeRootTree (headTreeId : Object) (cts : List Commitable) : Except GotErr NewTree := do
  let headTree ← gotObjectOpenAsTree headTreeId
  writeTree cts (depth cts + 1) (some headTree) ['/'] []

end Got

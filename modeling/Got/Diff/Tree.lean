import Got.Object

/-!
# Comparing trees

Two trees are gone through side by side, by position. An entry of the first tree is
compared with the entry of the same name in the second, wherever that is, and an entry of
the second tree matters only if there is none of its name in the first. What was found
is passed to a callback, and directories are entered.

A path is given to the callback as a label, which is made of the labels of the directories
above. The callbacks that are made are listed here.
-/

namespace Got

/-- **A call of `got_diff_blob_cb`.** What is missing on one side is `NULL`, with mode zero. -/
structure DiffBlobCall where
  blob1 : Option Bytes
  blob2 : Option Bytes
  id1 : Option Object
  id2 : Option Object
  label1 : Option (List Name)
  label2 : Option (List Name)
  mode1 : UInt32
  mode2 : UInt32
  deriving DecidableEq

/-- A blob is opened if its content matters. -/
def openBlob (diffContent : Bool) (id : Object) : Except GotErr (Option Bytes) :=
  if diffContent then (gotObjectOpenAsBlob id).map some else .ok none

/-- `diff_added_blob`, or the call itself if the content of blobs does not matter. -/
def diffAddedBlob (diffContent : Bool) (te : TreeEntry) (label : List Name) :
    Except GotErr (List DiffBlobCall) := do
  let blob ← openBlob diffContent te.id
  return [⟨none, blob, none, some te.id, none, some label, 0, te.mode⟩]

/-- `diff_deleted_blob` -/
def diffDeletedBlob (diffContent : Bool) (te : TreeEntry) (label : List Name) :
    Except GotErr (List DiffBlobCall) := do
  let blob ← openBlob diffContent te.id
  return [⟨blob, none, some te.id, none, some label, none, te.mode, 0⟩]

/-- What is opened by `diff_modified_blob`. -/
def openModifiedBlobs (diffContent : Bool) (id1 id2 : Object) :
    Except GotErr (Option Bytes × Option Bytes) :=
  if ¬diffContent then .ok (none, none)
  else
    match id1, id2 with
    | .blob content1, .blob content2 => .ok (some content1, some content2)
    | .foreign _, _ => .error .noObj
    | .tree _, _ => .error .objType
    | .blob _, .foreign _ => .error .noObj
    | .blob _, .tree _ => .error .badObjData

/-- `diff_modified_blob` -/
def diffModifiedBlob (diffContent : Bool) (te1 te2 : TreeEntry) (label1 label2 : List Name) :
    Except GotErr (List DiffBlobCall) := do
  let (blob1, blob2) ← openModifiedBlobs diffContent te1.id te2.id
  return [⟨blob1, blob2, some te1.id, some te2.id, some label1, some label2, te1.mode, te2.mode⟩]

/-- The type of an object is checked. -/
def checkTree : Object → Except GotErr Unit
  | .tree _ => .ok ()
  | .blob _ => .error .objType
  | .foreign _ => .error .noObj

/-- **`got_diff_tree` on trees that were opened**, or on `NULL`. -/
abbrev DiffTree := Option (List TreeEntry) → Option (List TreeEntry) → List Name → List Name →
  Except GotErr (List DiffBlobCall)

section Entries

variable (diffTree : DiffTree) (diffContent : Bool)

/-- `diff_added_tree` -/
def diffAddedTree (id : Object) (label : List Name) : Except GotErr (List DiffBlobCall) := do
  checkTree id
  let tree ← gotObjectOpenAsTree id
  diffTree none (some tree) [] label

/-- `diff_deleted_tree` -/
def diffDeletedTree (id : Object) (label : List Name) : Except GotErr (List DiffBlobCall) := do
  checkTree id
  let tree ← gotObjectOpenAsTree id
  diffTree (some tree) none label []

/-- `diff_modified_tree` -/
def diffModifiedTree (id1 id2 : Object) (label1 label2 : List Name) :
    Except GotErr (List DiffBlobCall) := do
  checkTree id1
  checkTree id2
  let tree1 ← gotObjectOpenAsTree id1
  let tree2 ← gotObjectOpenAsTree id2
  diffTree (some tree1) (some tree2) label1 label2

/-- `diff_kind_mismatch`, which is yet to be written. -/
def diffKindMismatch (_id1 _id2 : Object) (_label1 _label2 : List Name) :
    Except GotErr (List DiffBlobCall) := .ok []

/-- A file or a symbolic link. -/
def TreeEntry.isRegOrLnk (te : TreeEntry) : Bool := S_ISREG te.mode || S_ISLNK te.mode

/-- The bits of a mode that are compared. -/
def comparedMode (mode : UInt32) : UInt32 := mode &&& (S_IFLNK ||| S_IXUSR)

/-- **`diff_entry_old_new`** -/
def diffEntryOldNew (te1 : TreeEntry) (te2 : Option TreeEntry) (label1 label2 : List Name) :
    Except GotErr (List DiffBlobCall) :=
  if te1.isSubmodule then .ok []
  else
    match te2 with
    | none =>
      if S_ISDIR te1.mode then diffDeletedTree diffTree te1.id label1
      else diffDeletedBlob diffContent te1 label1
    | some te2 =>
      if te2.isSubmodule then .ok []
      else if S_ISDIR te1.mode ∧ S_ISDIR te2.mode ∧ te1.id ≠ te2.id then
        diffModifiedTree diffTree te1.id te2.id label1 label2
      else if ¬(S_ISDIR te1.mode ∧ S_ISDIR te2.mode) ∧ te1.isRegOrLnk ∧ te2.isRegOrLnk
          ∧ (te1.id ≠ te2.id ∨ comparedMode te1.mode ≠ comparedMode te2.mode) then
        diffModifiedBlob diffContent te1 te2 label1 label2
      else if te1.id = te2.id then .ok []
      else diffKindMismatch te1.id te2.id label1 label2

/-- **`diff_entry_new_old`** -/
def diffEntryNewOld (te2 : TreeEntry) (te1 : Option TreeEntry) (label2 : List Name) :
    Except GotErr (List DiffBlobCall) :=
  if te1.isSome then .ok []
  else if te2.isSubmodule then .ok []
  else if S_ISDIR te2.mode then diffAddedTree diffTree te2.id label2
  else diffAddedBlob diffContent te2 label2

end Entries

/-- The loop of `got_diff_tree` where there are no more entries in the first tree. -/
def diffTreeRest (newOld : TreeEntry → Except GotErr (List DiffBlobCall)) :
    List TreeEntry → Except GotErr (List DiffBlobCall)
  | [] => .ok []
  | te2 :: rest2 => do
    let calls ← newOld te2
    let more ← diffTreeRest newOld rest2
    return calls ++ more

/-- The entry of the second tree at a position. -/
def diffTreeAt (newOld : TreeEntry → Except GotErr (List DiffBlobCall)) :
    List TreeEntry → Except GotErr (List DiffBlobCall)
  | [] => .ok []
  | te2 :: _ => newOld te2

/-- **The loop of `got_diff_tree`**, by position in either tree. -/
def diffTreeLoop (oldNew newOld : TreeEntry → Except GotErr (List DiffBlobCall)) :
    List TreeEntry → List TreeEntry → Except GotErr (List DiffBlobCall)
  | [], rest2 => diffTreeRest newOld rest2
  | te1 :: rest1, rest2 => do
    let calls1 ← oldNew te1
    let calls2 ← diffTreeAt newOld rest2
    let more ← diffTreeLoop oldNew newOld rest1 rest2.tail
    return calls1 ++ calls2 ++ more

/-- `got_object_tree_find_entry` in a tree that may be `NULL`. -/
def treeFindEntry (tree : Option (List TreeEntry)) (name : Name) : Option TreeEntry :=
  tree.bind fun es => findEntryByName es name.val

/-- **`got_diff_tree`** -/
def gotDiffTree (diffContent : Bool) : ℕ → DiffTree
  | 0, _, _, _, _ => .error .fuel
  | fuel + 1, tree1, tree2, label1, label2 =>
    diffTreeLoop
      (fun te1 => diffEntryOldNew (gotDiffTree diffContent fuel) diffContent te1
        (treeFindEntry tree2 te1.name) (label1 ++ [te1.name]) (label2 ++ [te1.name]))
      (fun te2 => diffEntryNewOld (gotDiffTree diffContent fuel) diffContent te2
        (treeFindEntry tree1 te2.name) (label2 ++ [te2.name]))
      (tree1.getD []) (tree2.getD [])

end Got

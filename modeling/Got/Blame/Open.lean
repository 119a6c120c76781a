import Got.CommitGraph.Graph
import Got.Diff.Atomize

/-!
# Blame

To blame a file is to say for each of its lines which commit added it. History is
followed back by first parents, through the commits that changed the file, and
the file of each of them is compared with that of its parent. A line that this
difference adds was added by that commit, and a line that it keeps is looked for
among the lines of the older file from then on.

Where lines have moved to is written down in a map, which for each line of the
older file has the number of the line in the file being blamed, or -1. When the
next commit is looked at the older file is the newer one, and so is its map.

How two files are compared is a parameter here: it is a function that returns the
chunks of the difference. The callback that lines are reported to can be missing,
and it is left out.
-/

namespace Got

variable {ι : Type}

/-! ## The lines of a blob -/

/-- Where lines start behind the ends of lines there are, for a text that starts
at an offset. -/
def lineOffsetsFrom (off : ℕ) : Bytes → List ℕ
  | [] => []
  | c :: data =>
    if c = 10 then (off + 1) :: lineOffsetsFrom (off + 1) data else lineOffsetsFrom (off + 1) data

/-- **`got_object_blob_dump_to_file`**: where lines start. There is a header in front
of a blob, depending on how it is stored, and with a header it is not found to be
empty. The blocks in which it is read, and the table of lines, which is limited by the range of an
`int`, make no difference to this (`BlobDump.IsRead.lineOffsets`). -/
def gotObjectBlobDumpToFile (hdrlen : ℕ) (content : Bytes) : List ℕ :=
  if hdrlen + content.length = 0 then [] else 0 :: lineOffsetsFrom 0 content

/-- The loop of `atomize_file`, which goes up to the next line, or the end. -/
def atomizeFile (content : Bytes) : List ℕ → List DiffAtom
  | [] => []
  | pos :: rest =>
    let len := rest.head?.getD content.length - pos
    let data := (content.drop pos).take len
    ⟨data.foldl diffAtomHashUpdate 0, data⟩ :: atomizeFile content rest

/-- The atoms of a blob. -/
def blobAtoms (hdrlen : Object → ℕ) (content : Bytes) : List DiffAtom :=
  atomizeFile content (gotObjectBlobDumpToFile (hdrlen (.blob content)) content)

/-! ## The state -/

/-- **`struct got_blame`** -/
structure Blame (ι : Type) where
  /-- number of lines in file being blamed -/
  nlines : ℕ
  /-- number of lines already annotated -/
  nannotated : ℕ
  /-- The commit a line is annotated with. -/
  lines : List (Option ι)
  /-- The older version, and the newer one. -/
  data1 : List DiffAtom
  data2 : List DiffAtom
  /-- For each line of either the number of the line that is blamed. -/
  linemap1 : List ℤ
  linemap2 : List ℤ

namespace Blame

/-- **`annotate_line`** -/
def annotateLine (blame : Blame ι) (lineno : ℤ) (id : ι) : Blame ι :=
  if lineno < 0 ∨ lineno ≥ blame.nlines then blame
  else
    match blame.lines[lineno.toNat]? with
    | some none =>
      { blame with
        lines := blame.lines.set lineno.toNat (some id)
        nannotated := blame.nannotated + 1 }
    | _ => blame

/-- Read from a map. -/
def readMap (linemap : List ℤ) (idx : ℕ) : Except GotErr ℤ :=
  match linemap[idx]? with
  | some ln => .ok ln
  | none => .error .outOfMap

/-- Write to a map. -/
def writeMap (linemap : List ℤ) (idx : ℕ) (ln : ℤ) : Except GotErr (List ℤ) :=
  if idx < linemap.length then .ok (linemap.set idx ln) else .error .outOfMap

/-- The lines of a chunk are in both files. -/
def keepLines (linemap2 : List ℤ) : ℕ → ℕ → ℕ → List ℤ → Except GotErr (List ℤ)
  | 0, _, _, linemap1 => .ok linemap1
  | n + 1, idx1, idx2, linemap1 => do
    let ln ← readMap linemap2 idx2
    let linemap1 ← writeMap linemap1 idx1 ln
    keepLines linemap2 n (idx1 + 1) (idx2 + 1) linemap1

/-- The lines of a chunk are in the older file only. -/
def dropLines : ℕ → ℕ → List ℤ → Except GotErr (List ℤ)
  | 0, _, linemap1 => .ok linemap1
  | n + 1, idx1, linemap1 => do
    let linemap1 ← writeMap linemap1 idx1 (-1)
    dropLines n (idx1 + 1) linemap1

/-- The lines of a chunk are in the newer file only. -/
def annotateLines (commitId : ι) : ℕ → ℕ → Blame ι → Except GotErr (Blame ι)
  | 0, _, blame => .ok blame
  | n + 1, idx2, blame => do
    let ln ← readMap blame.linemap2 idx2
    let blame := blame.annotateLine ln commitId
    if blame.nlines = blame.nannotated then .ok blame
    else annotateLines commitId n (idx2 + 1) blame

/-- **`blame_changes`**, which stops when all lines are annotated. -/
def blameChanges (commitId : ι) :
    List DiffChunk → ℕ → ℕ → Blame ι → Except GotErr (Blame ι)
  | [], _, _, blame => .ok blame
  | c :: chunks, idx1, idx2, blame =>
    if ¬blame.nannotated < blame.nlines then .ok blame
    else if c.leftCount = c.rightCount then do
      let linemap1 ← keepLines blame.linemap2 c.leftCount idx1 idx2 blame.linemap1
      blameChanges commitId chunks (idx1 + c.leftCount) (idx2 + c.leftCount)
        { blame with linemap1 }
    else if c.rightCount = 0 then do
      let linemap1 ← dropLines c.leftCount idx1 blame.linemap1
      blameChanges commitId chunks (idx1 + c.leftCount) idx2 { blame with linemap1 }
    else do
      let blame ← annotateLines commitId c.rightCount idx2 blame
      blameChanges commitId chunks idx1 (idx2 + c.rightCount) blame

/-- **`close_file2_and_reuse_file1`** -/
def closeFile2AndReuseFile1 (blame : Blame ι) : Blame ι :=
  { blame with
    data1 := []
    data2 := blame.data1
    linemap1 := []
    linemap2 := blame.linemap1 }

end Blame

/-! ## Following history -/

section Open

variable (diff : DiffRoot → List DiffChunk) (hdrlen : Object → ℕ) (repo : Repository ι)
  (path : List Name)

/-- **`blame_commit`**: the file of a commit is compared with that of its parent,
if there is one. -/
def blameCommit (blame : Blame ι) (id : ι) : Except GotErr (Blame ι) := do
  let commit ← repo.gotObjectOpenAsCommit id
  match commit.parentIds with
  | [] => return blame
  | pid :: _ =>
    match repo.gotObjectIdByPath pid path with
    | .error .noTreeEntry => return blame
    | .error e => .error e
    | .ok pblobId => do
      let pblob ← gotObjectOpenAsBlob pblobId
      let blame := { blame with data1 := blobAtoms hdrlen pblob }
      let chunks := diff ⟨blame.data1, blame.data2, false⟩
      if chunks.length > 0 then
        Blame.blameChanges id chunks 0 0
          { blame with linemap1 := List.replicate blame.data1.length 0 }
      else return blame

/-- Annotate remaining non-annotated lines with last commit. -/
def annotateRemaining (id : Option ι) (blame : Blame ι) : Blame ι :=
  match id with
  | some id =>
    if blame.nannotated < blame.nlines then
      (List.range blame.nlines).foldl
        (fun blame (lineno : ℕ) => blame.annotateLine lineno id) blame
    else blame
  | none => blame

variable [LinearOrder ι] (fuel : ℕ)

/-- The loop of `blame_open`, with the commit that was processed last. -/
def blameLoop : ℕ → CommitGraph ι → Option ι → Blame ι → Except GotErr (Blame ι)
  | 0, _, _, _ => .error .fuel
  | n + 1, graph, id, blame =>
    match graph.gotCommitGraphIterNext repo fuel with
    | .error .iterCompleted => .ok (annotateRemaining id blame)
    | .error e => .error e
    | .ok (id, graph) =>
      match blameCommit diff hdrlen repo path blame id with
      | .error .iterCompleted => .ok blame
      | .error e => .error e
      | .ok blame =>
        if blame.nannotated = blame.nlines then .ok (annotateRemaining (some id) blame)
        else blameLoop n graph (some id) blame.closeFile2AndReuseFile1

/-- What there is before the first commit. The end of the last line is not included
in the blame line count. -/
def blamePrepare (content : Bytes) : Blame ι :=
  let data2 := blobAtoms hdrlen content
  let offsets := gotObjectBlobDumpToFile (hdrlen (.blob content)) content
  let nlines :=
    if offsets.getLast? = some content.length then offsets.length - 1 else offsets.length
  { nlines
    nannotated := 0
    lines := List.replicate nlines none
    data1 := []
    data2
    linemap1 := []
    linemap2 := (List.range offsets.length).map Nat.cast }

/-- **`blame_open`** -/
def blameOpen (startCommitId : ι) : Except GotErr (Blame ι) := do
  let objId ← repo.gotObjectIdByPath startCommitId path
  let blob ← gotObjectOpenAsBlob objId
  let blame := blamePrepare hdrlen blob
  if gotObjectBlobDumpToFile (hdrlen (.blob blob)) blob = [] then return blame
  else
    let graph ← CommitGraph.gotCommitGraphIterStart repo fuel
      (CommitGraph.gotCommitGraphOpen path true) startCommitId
    blameLoop diff hdrlen repo path fuel fuel graph none blame

end Open

end Got

import Got.CString
import Got.Endian
import Got.FileIndex.Index

/-!
# The file index on disk

A file index is stored as a header, with the count of its entries, the entries
in their order, and a digest of all that. The size of an entry is found out by
reading it: its path is padded with zeros to a multiple of eight bytes, and a
blob that is staged is only there for some of the entries.

The reader takes as many entries as the header says, and the header says what
the count in memory says. So what is read is what was written exactly if the
count is right (`readsBack_iff`).
-/

namespace Got

open OrderedList Records

def GOT_FILE_INDEX_SIGNATURE : UInt32 := 0x676f7449
def GOT_FILE_INDEX_VERSION : UInt32 := 2

/-- Whether there is a staged blob on disk. -/
def FileindexEntry.hasStagedBlob (ie : FileindexEntry) : Bool :=
  ie.stageGet = GOT_FILEIDX_STAGE_MODIFY ∨ ie.stageGet = GOT_FILEIDX_STAGE_ADD

/-! ## Writing -/

/-- How many zeros follow a path, which are never none. -/
def pathPad (len : ℕ) : ℕ :=
  let pad := (8 - len % 8) % 8
  if pad = 0 then 8 else pad

/-- `write_fileindex_path`: the path, padded to a multiple of eight bytes. -/
def writeFileindexPath (path : Str) : Bytes :=
  pathBytes path ++ List.replicate (pathPad path.length) 0

/-- `write_fileindex_entry`: the fields in the order the file has them, the staged blob only where
there is one. -/
def writeFileindexEntry (ie : FileindexEntry) : Bytes :=
  htobe64 ie.ctimeSec ++ (htobe64 ie.ctimeNsec ++ (htobe64 ie.mtimeSec ++ (htobe64 ie.mtimeNsec
    ++ (htobe32 ie.uid ++ (htobe32 ie.gid ++ (htobe32 ie.size ++ (htobe16 ie.mode
    ++ (ie.blobSha1.val ++ (ie.commitSha1.val ++ (htobe32 ie.flags ++ (writeFileindexPath ie.path
    ++ if ie.hasStagedBlob then ie.stagedBlobSha1.val else [])))))))))))

namespace Fileindex

/-- **What becomes of an entry when the index is written**: it is written, or
removed if it is marked. -/
def flushEntry (fi : Fileindex) (ie : ℕ) : Bytes × Fileindex :=
  let e := (fi.entry ie).clearFlags GOT_FILEIDX_F_NOT_FLUSHED
  let fi := fi.setEntry ie e
  if e.removed then ([], { fi with entries := fi.entries.erase ie })
  else (writeFileindexEntry e, fi)

/-- The loop over the tree. -/
def flushEntries : Fileindex → List ℕ → Bytes × Fileindex
  | fi, [] => ([], fi)
  | fi, ie :: entries =>
    let (bytes, fi) := fi.flushEntry ie
    let (rest, fi) := flushEntries fi entries
    (bytes ++ rest, fi)

/-- The header of the file. -/
def fileindexHdr (fi : Fileindex) : Bytes :=
  htobe32 GOT_FILE_INDEX_SIGNATURE ++ (htobe32 GOT_FILE_INDEX_VERSION
    ++ htobe32 (UInt32.ofInt fi.nentries))

/-- **`got_fileindex_write`**: the file, and the index when it is written. -/
def gotFileindexWrite (sha1 : Bytes → Sha1) (fi : Fileindex) : Bytes × Fileindex :=
  let (entries, flushed) := flushEntries fi fi.entries
  let hashed := fi.fileindexHdr ++ entries
  (hashed ++ (sha1 hashed).val, flushed)

end Fileindex

/-! ## Reading -/

/-- **Read a path**, in chunks, of which the last one has a zero in it. -/
def readFileindexPath : Bytes → Except GotErr (Bytes × Bytes)
  | a :: b :: c :: d :: e :: f :: g :: h :: infile =>
    if 0 ∈ [a, b, c, d, e, f, g, h] then .ok ([a, b, c, d, e, f, g, h], infile)
    else (readFileindexPath infile).map
      (fun (path, rest) => ([a, b, c, d, e, f, g, h] ++ path, rest))
  | _ => .error .fileidxBad

/-- Read the id of a staged blob, if there is one. The first version of the
format does not support staging. -/
def readStagedBlob (version : UInt32) (ie : FileindexEntry) (infile : Bytes) :
    Except GotErr (FileindexEntry × Bytes) :=
  if version ≥ 2 then
    if ie.hasStagedBlob then
      (readField .fileidxBad SHA1_DIGEST_LENGTH oidOf infile).map
        (fun (id, rest) => ({ ie with stagedBlobSha1 := id }, rest))
    else .ok (ie, infile)
  else .ok (ie.clearFlags GOT_FILEIDX_F_STAGE, infile)

/-- **Read an entry**, and what follows it. -/
def readFileindexEntry (version : UInt32) (infile : Bytes) :
    Except GotErr (FileindexEntry × Bytes) := do
  let (ctimeSec, infile) ← readField .fileidxBad 8 be64toh infile
  let (ctimeNsec, infile) ← readField .fileidxBad 8 be64toh infile
  let (mtimeSec, infile) ← readField .fileidxBad 8 be64toh infile
  let (mtimeNsec, infile) ← readField .fileidxBad 8 be64toh infile
  let (uid, infile) ← readField .fileidxBad 4 be32toh infile
  let (gid, infile) ← readField .fileidxBad 4 be32toh infile
  let (size, infile) ← readField .fileidxBad 4 be32toh infile
  let (mode, infile) ← readField .fileidxBad 2 be16toh infile
  let (blobSha1, infile) ← readField .fileidxBad SHA1_DIGEST_LENGTH oidOf infile
  let (commitSha1, infile) ← readField .fileidxBad SHA1_DIGEST_LENGTH oidOf infile
  let (flags, infile) ← readField .fileidxBad 4 be32toh infile
  let (path, infile) ← readFileindexPath infile
  readStagedBlob version {
    ctimeSec := ctimeSec
    ctimeNsec := ctimeNsec
    mtimeSec := mtimeSec
    mtimeNsec := mtimeNsec
    uid := uid
    gid := gid
    size := size
    mode := mode
    blobSha1 := blobSha1
    commitSha1 := commitSha1
    flags := flags
    path := cString path } infile

namespace Fileindex

/-- Read `n` entries, and what follows them. -/
def readEntries (version : UInt32) : ℕ → Fileindex → Bytes → Except GotErr (Fileindex × Bytes)
  | 0, fi, infile => .ok (fi, infile)
  | n + 1, fi, infile => do
    let (e, infile) ← readFileindexEntry version infile
    let fi ← (fi.alloc e).addEntry fi.heap.length
    readEntries version n fi infile

/-- Read a field of the header. A file that ends there is an empty index. -/
def readHdr {α : Type} (eof : α) (infile : Bytes) (next : UInt32 → Bytes → Except GotErr α) :
    Except GotErr α :=
  if infile = [] then .ok eof
  else readField .fileidxBad 4 be32toh infile >>= fun (val, rest) => next val rest

/-- Compare the digest with that of everything in front of it. -/
def checkSha1 (sha1 : Bytes → Sha1) (infile rest : Bytes) : Except GotErr Unit := do
  let hashed := infile.take (infile.length - rest.length)
  let (expected, _) ← readField .fileidxBad SHA1_DIGEST_LENGTH oidOf rest
  check .fileidxCsum (sha1 hashed ≠ expected)

/-- **`got_fileindex_read`**: the entries are added to an index. -/
def gotFileindexRead (sha1 : Bytes → Sha1) (fi : Fileindex) (infile : Bytes) :
    Except GotErr Fileindex :=
  readHdr fi infile fun signature rest =>
  readHdr fi rest fun version rest =>
  readHdr fi rest fun nentries rest => do
    check .fileidxSig (signature ≠ GOT_FILE_INDEX_SIGNATURE)
    check .fileidxVer (version > GOT_FILE_INDEX_VERSION)
    let (fi, rest) ← readEntries version nentries.toNat fi rest
    checkSha1 sha1 infile rest
    return fi

/-- The entries, in their order. -/
def contents (fi : Fileindex) : List FileindexEntry := fi.entries.map fi.entry

end Fileindex

/-- **An entry as it is on disk**: it is flushed, and an id that is not staged
is not there. -/
def FileindexEntry.onDisk (ie : FileindexEntry) : FileindexEntry :=
  { ie.clearFlags GOT_FILEIDX_F_NOT_FLUSHED with
    stagedBlobSha1 := if ie.hasStagedBlob then ie.stagedBlobSha1 else zeroSha1 }

/-- **Reading undoes writing**: the file is accepted, and what is read are the
entries that are not marked for removal. -/
def Fileindex.ReadsBack (sha1 : Bytes → Sha1) (fi : Fileindex) : Prop :=
  ∃ fi', gotFileindexRead sha1 empty (gotFileindexWrite sha1 fi).1 = .ok fi'
    ∧ fi'.contents = fi.live.map (fun ie => (fi.entry ie).onDisk)

/-! ## Paths -/

theorem pathPad_eq (len : ℕ) : pathPad len = 8 - len % 8 := by
  unfold pathPad
  dsimp only
  split <;> omega

/-- A chunk of a path. -/
theorem readFileindexPath_chunk {chunk : Bytes} (h : chunk.length = 8) (infile : Bytes) :
    readFileindexPath (chunk ++ infile) =
      if 0 ∈ chunk then .ok (chunk, infile)
      else (readFileindexPath infile).map (fun (path, rest) => (chunk ++ path, rest)) := by
  match chunk, h with
  | [_, _, _, _, _, _, _, _], _ => rfl

/-- **Reading a path** that was written. -/
theorem readFileindexPath_append {bytes : Bytes} (h : 0 ∉ bytes) (rest : Bytes) :
    readFileindexPath (bytes ++ (List.replicate (pathPad bytes.length) 0 ++ rest))
      = .ok (bytes ++ List.replicate (pathPad bytes.length) 0, rest) := by
  induction hn : bytes.length / 8 generalizing bytes with
  | zero =>
    -- the path ends in this chunk
    have hpad := pathPad_eq bytes.length
    have hlen : (bytes ++ List.replicate (pathPad bytes.length) (0 : UInt8)).length = 8 := by
      rw [List.length_append, List.length_replicate]
      omega
    have hzero : (0 : UInt8) ∈ List.replicate (pathPad bytes.length) 0 :=
      List.mem_replicate.mpr ⟨by omega, rfl⟩
    rw [← List.append_assoc, readFileindexPath_chunk hlen,
      if_pos (List.mem_append_right bytes hzero)]
  | succ n ih =>
    have hlen : (bytes.take 8).length = 8 := List.length_take_of_le (by omega)
    have hdrop : (bytes.drop 8).length = bytes.length - 8 := List.length_drop
    have hpad : pathPad (bytes.drop 8).length = pathPad bytes.length := by
      rw [pathPad_eq, pathPad_eq]
      omega
    have hdiv : (bytes.drop 8).length / 8 = n := by omega
    have ih := ih (fun h0 => h (List.mem_of_mem_drop h0)) hdiv
    rw [hpad] at ih
    generalize pathPad bytes.length = pad at ih ⊢
    conv_lhs => rw [← List.take_append_drop 8 bytes]
    rw [List.append_assoc, readFileindexPath_chunk hlen,
      if_neg (fun h0 => h (List.mem_of_mem_take h0)), ih]
    show Except.ok (bytes.take 8 ++ (bytes.drop 8 ++ _), rest) = _
    rw [← List.append_assoc, List.take_append_drop]

/-! ## Entries -/

/-- The staged blob is read back where the stage says that there is one, and is the empty digest
otherwise. -/
theorem readStagedBlob_append (ie : FileindexEntry) (rest : Bytes) :
    readStagedBlob GOT_FILE_INDEX_VERSION { ie with stagedBlobSha1 := zeroSha1 }
        ((if ie.hasStagedBlob then ie.stagedBlobSha1.val else []) ++ rest)
      = .ok ({ ie with stagedBlobSha1 := if ie.hasStagedBlob then ie.stagedBlobSha1 else zeroSha1 },
          rest) := by
  have hstaged : ({ ie with stagedBlobSha1 := zeroSha1 } : FileindexEntry).hasStagedBlob
      = ie.hasStagedBlob := rfl
  unfold readStagedBlob
  rw [if_pos (by decide), hstaged]
  cases ie.hasStagedBlob with
  | true => 
    simp [record_sha1.readField_append, Except.map]
  | false => rfl

/-- **Reading an entry** that was written. -/
theorem readFileindexEntry_append {ie : FileindexEntry}
    (h : ∀ c ∈ ie.path, 0 < c.toNat ∧ c.toNat < 256) (rest : Bytes) :
    readFileindexEntry GOT_FILE_INDEX_VERSION (writeFileindexEntry ie ++ rest)
      = .ok ({ ie with
          stagedBlobSha1 := if ie.hasStagedBlob then ie.stagedBlobSha1 else zeroSha1 }, rest) := by
  have hlen : (pathBytes ie.path).length = ie.path.length := List.length_map _
  have hpath := readFileindexPath_append (zero_not_mem_pathBytes h)
    ((if ie.hasStagedBlob then ie.stagedBlobSha1.val else []) ++ rest)
  have hpad : 0 < pathPad ie.path.length := by
    rw [pathPad_eq]
    omega
  rw [hlen] at hpath
  unfold readFileindexEntry
  simp only [writeFileindexEntry, writeFileindexPath, List.append_assoc,
    record_be64.readField_append, record_be32.readField_append, record_be16.readField_append,
    record_sha1.readField_append, ok_bind, hpath, cString_pathBytes h _ hpad]
  exact readStagedBlob_append ie rest

namespace FileindexEntry

/-- An entry as it is read: an id that is not staged is not there. -/
def stored (ie : FileindexEntry) : FileindexEntry :=
  { ie with stagedBlobSha1 := if ie.hasStagedBlob then ie.stagedBlobSha1 else zeroSha1 }

/-- An entry on disk is stored without the flag that it is not. -/
theorem stored_clearFlags (ie : FileindexEntry) :
    (ie.clearFlags GOT_FILEIDX_F_NOT_FLUSHED).stored = ie.onDisk := by
  have hstage : (ie.clearFlags GOT_FILEIDX_F_NOT_FLUSHED).hasStagedBlob = ie.hasStagedBlob := by
    have hflags : (ie.flags &&& ~~~GOT_FILEIDX_F_NOT_FLUSHED) &&& GOT_FILEIDX_F_STAGE
        = ie.flags &&& GOT_FILEIDX_F_STAGE := and_not_and_of_disjoint ie.flags (by decide)
    unfold hasStagedBlob stageGet clearFlags
    rw [hflags]
  unfold stored onDisk
  rw [hstage]
  rfl

end FileindexEntry

/-! ## The loops -/

namespace Fileindex

variable {fi fi' : Fileindex} {sha1 : Bytes → Sha1}

/-- **What is written** are the entries that are not marked, flushed. -/
theorem flushEntries_fst {l : List ℕ} (hnodup : l.Nodup) (hvalid : ∀ ie ∈ l, ie < fi.heap.length) :
    (flushEntries fi l).1 = (l.filter (fun ie => ¬(fi.entry ie).removed)).flatMap
      (fun ie => writeFileindexEntry ((fi.entry ie).clearFlags GOT_FILEIDX_F_NOT_FLUSHED)) := by
  induction l generalizing fi with
  | nil => rfl
  | cons ie l ih =>
    obtain ⟨hie, hnodup⟩ := List.nodup_cons.mp hnodup
    have hremoved : ((fi.entry ie).clearFlags GOT_FILEIDX_F_NOT_FLUSHED).removed
        = (fi.entry ie).removed :=
      FileindexEntry.hasFlag_clearFlags _ (by decide)
    -- the other entries are as they were
    have hsame : ∀ ie' ∈ l, (fi.flushEntry ie).2.entry ie' = fi.entry ie' := by
      intro ie' hie'
      have hne : ie' ≠ ie := fun heq => hie (heq ▸ hie')
      unfold flushEntry
      dsimp only
      split <;> exact entry_setEntry_of_ne hne
    have hheap : (fi.flushEntry ie).2.heap.length = fi.heap.length := by
      unfold flushEntry
      dsimp only
      split <;> exact List.length_set
    have hrest := @ih (fi.flushEntry ie).2 hnodup
      (fun ie' hie' => hheap ▸ hvalid ie' (List.mem_cons_of_mem ie hie'))
    have hfilter : l.filter (fun ie' => ¬((fi.flushEntry ie).2.entry ie').removed)
        = l.filter (fun ie' => ¬(fi.entry ie').removed) :=
      List.filter_congr fun ie' hie' => by rw [hsame ie' hie']
    show (fi.flushEntry ie).1 ++ (flushEntries (fi.flushEntry ie).2 l).1 = _
    rw [hrest, hfilter, List.flatMap_congr fun ie' hie' => by
      rw [hsame ie' (List.mem_of_mem_filter hie')]]
    unfold flushEntry
    dsimp only
    rw [hremoved]
    cases hmark : (fi.entry ie).removed with
    | true => rw [List.filter_cons_of_neg (by simpa using hmark), if_pos rfl, List.nil_append]
    | false =>
      rw [List.filter_cons_of_pos (by simpa using hmark), if_neg Bool.false_ne_true,
        List.flatMap_cons]

/-- An index that was read, with all its entries in order. -/
def ofEntries (es : List FileindexEntry) : Fileindex := ⟨es, List.range es.length, es.length⟩

theorem contents_ofEntries (es : List FileindexEntry) : (ofEntries es).contents = es := by
  refine List.ext_getElem (by simp [contents, ofEntries]) fun i hi hi' => ?_
  simp [contents, ofEntries, entry, hi']

/-- **An entry behind all others** is added at the end. -/
theorem addEntry_ofEntries {es : List FileindexEntry} {e : FileindexEntry}
    (hentries : ∀ e' ∈ es ++ [e], e'.IsEntry) (hord : ∀ e' ∈ es, e'.key < e.key)
    (hmax : (es.length : ℤ) < INT_MAX) :
    ((ofEntries es).alloc e).addEntry es.length = .ok (ofEntries (es ++ [e])) := by
  have hinsert : insertBy ((ofEntries es).alloc e).cmp es.length (List.range es.length)
      = List.range es.length ++ [es.length] := by
    refine insertBy_of_forall_lt (comparesBy hentries) fun ie hie => ?_
    have hlt : ie < es.length := List.mem_range.mp hie
    have hold : ((ofEntries es).alloc e).entry ie = es[ie] := by
      simp [entry, Fileindex.alloc, ofEntries, List.getElem?_append_left hlt, hlt]
    have hnew : ((ofEntries es).alloc e).entry es.length = e := by
      simp [entry, Fileindex.alloc, ofEntries]
    rw [Fileindex.key, Fileindex.key, hold, hnew]
    exact hord _ (List.getElem_mem hlt)
  have hroom : ¬((ofEntries es).alloc e).nentries ≥ INT_MAX := Int.not_le.mpr hmax
  rw [addEntry, if_neg hroom]
  show Except.ok (Fileindex.mk (es ++ [e])
    (insertBy ((ofEntries es).alloc e).cmp es.length (List.range es.length)) (es.length + 1)) = _
  rw [hinsert, ofEntries, List.length_append, List.length_singleton, List.range_succ]
  rfl

/-- **A sorted index reads back.** Whatever follows it in the file, the entries are read in the
order they were written. -/
theorem readEntries_append {es₁ es₂ : List FileindexEntry} (rest : Bytes)
    (hentries : ∀ e ∈ es₁ ++ es₂.map FileindexEntry.stored, e.IsEntry)
    (hord : (es₁ ++ es₂.map FileindexEntry.stored).Pairwise (fun e e' => e.key < e'.key))
    (hmax : ((es₁.length + es₂.length : ℕ) : ℤ) ≤ INT_MAX) :
    readEntries GOT_FILE_INDEX_VERSION es₂.length (ofEntries es₁)
        (es₂.flatMap writeFileindexEntry ++ rest)
      = .ok (ofEntries (es₁ ++ es₂.map FileindexEntry.stored), rest) := by
  induction es₂ generalizing es₁ with
  | nil =>
    rw [List.map_nil, List.append_nil]
    rfl
  | cons e es₂ ih =>
    rw [List.map_cons, List.append_cons] at hentries hord
    have hsplit := List.pairwise_append.mp hord
    have hbytes : ∀ c ∈ e.path, 0 < c.toNat ∧ c.toNat < 256 :=
      (hentries e.stored (by simp)).bytes
    have hadd := addEntry_ofEntries (fun e' he' => hentries e' (List.mem_append_left _ he'))
      (fun e' he' => (List.pairwise_append.mp hsplit.1).2.2 e' he' e.stored
      (List.mem_singleton.mpr rfl))
      (by rw [List.length_cons] at hmax; omega)
    have ih := ih hentries hord
      (by rw [List.length_append, List.length_singleton]; rw [List.length_cons] at hmax; omega)
    rw [List.flatMap_cons, List.append_assoc, List.length_cons, readEntries,
      readFileindexEntry_append hbytes, ok_bind]
    show (((ofEntries es₁).alloc e.stored).addEntry es₁.length >>= fun fi =>
      readEntries GOT_FILE_INDEX_VERSION es₂.length fi _) = _
    rw [hadd, ok_bind, ih, List.map_cons, ← List.append_cons]

/-- Reading entries, and then some more. -/
theorem readEntries_add (version : UInt32) (m n : ℕ) (fi : Fileindex) (infile : Bytes) :
    readEntries version (m + n) fi infile
      = readEntries version m fi infile >>= fun (fi, rest) => readEntries version n fi rest := by
  induction m generalizing fi infile with
  | zero => rw [Nat.zero_add]; rfl
  | succ m ih =>
    rw [Nat.succ_add, readEntries, readEntries]
    simp only [bind_assoc]
    congr 1
    funext ⟨e, rest⟩
    congr 1
    funext fi
    exact ih fi rest

/-- **What a reader has** after so many entries. -/
theorem readEntries_spec {version : UInt32} {n : ℕ} {infile rest : Bytes}
    (h : readEntries version n fi infile = .ok (fi', rest)) (hfi : fi.nentries ≤ INT_MAX) :
    fi'.entries.length ≤ fi.entries.length + n ∧ fi.nentries + n ≤ INT_MAX := by
  induction n generalizing fi infile with
  | zero =>
    obtain ⟨rfl, -⟩ := Prod.mk.inj (Except.ok.inj h)
    exact ⟨Nat.le_refl _, by omega⟩
  | succ n ih =>
    obtain ⟨⟨e, infile'⟩, -, h⟩ := bind_eq_ok_iff.mp h
    obtain ⟨fi₁, hadd, h⟩ := bind_eq_ok_iff.mp h
    unfold addEntry at hadd
    split at hadd
    · exact nomatch hadd
    · next hlt =>
      obtain rfl := Except.ok.inj hadd
      have hinsert : (insertBy (fi.alloc e).cmp fi.heap.length fi.entries).length
          ≤ fi.entries.length + 1 := length_insertBy_le _ _
      have hroom : fi.nentries + 1 ≤ INT_MAX := Int.not_le.mp hlt
      obtain ⟨hlen, hmax⟩ := ih h hroom
      refine ⟨hlen.trans ?_, ?_⟩
      · show (insertBy (fi.alloc e).cmp fi.heap.length fi.entries).length + n ≤ _
        omega
      · have hmax : fi.nentries + 1 + n ≤ INT_MAX := hmax
        omega

/-- A digest is too short for an entry. -/
theorem readFileindexEntry_short {version : UInt32} {infile : Bytes} {x : FileindexEntry × Bytes}
    (hlen : infile.length = SHA1_DIGEST_LENGTH) : readFileindexEntry version infile ≠ .ok x := by
  intro h
  unfold readFileindexEntry at h
  obtain ⟨⟨_, rest₁⟩, h₁, h⟩ := bind_eq_ok_iff.mp h
  obtain ⟨⟨_, rest₂⟩, h₂, h⟩ := bind_eq_ok_iff.mp h
  obtain ⟨⟨_, rest₃⟩, h₃, -⟩ := bind_eq_ok_iff.mp h
  rw [record_be64.readField_eq_ok_iff.mp h₁, record_be64.readField_eq_ok_iff.mp h₂,
    record_be64.readField_eq_ok_iff.mp h₃] at hlen
  simp only [List.length_append, record_be64.length_enc] at hlen
  exact absurd hlen (by unfold SHA1_DIGEST_LENGTH; omega)

/-! ## What is read -/

/-- The entries that are written. -/
def flushed (fi : Fileindex) : List FileindexEntry :=
  fi.live.map (fun ie => (fi.entry ie).clearFlags GOT_FILEIDX_F_NOT_FLUSHED)

theorem stored_flushed (fi : Fileindex) :
    fi.flushed.map FileindexEntry.stored = fi.live.map (fun ie => (fi.entry ie).onDisk) := by
  rw [flushed, List.map_map]
  exact List.map_congr_left fun ie _ => FileindexEntry.stored_clearFlags (fi.entry ie)

/-- The file. -/
theorem gotFileindexWrite_fst (h : Ordered fi) :
    (gotFileindexWrite sha1 fi).1 = fi.fileindexHdr ++ (fi.flushed.flatMap writeFileindexEntry
      ++ (sha1 (fi.fileindexHdr ++ fi.flushed.flatMap writeFileindexEntry)).val) := by
  have hbody := flushEntries_fst (List.Nodup.of_map _ h.inOrder.nodup_map) h.valid
  rw [flushed, List.flatMap_map, ← List.append_assoc]
  show _ ++ (flushEntries fi fi.entries).1 ++ (sha1 (_ ++ (flushEntries fi fi.entries).1)).val = _
  rw [hbody]
  rfl

/-- The header is accepted, and says how many entries to read. -/
theorem gotFileindexRead_hdr (fi₀ fi : Fileindex) (body : Bytes) :
    gotFileindexRead sha1 fi₀ (fi.fileindexHdr ++ body)
      = readEntries GOT_FILE_INDEX_VERSION (UInt32.ofInt fi.nentries).toNat fi₀ body >>=
          fun (fi', rest) => checkSha1 sha1 (fi.fileindexHdr ++ body) rest >>= fun _ =>
            .ok fi' := by
  have hfield : ∀ (val : UInt32) (rest : Bytes) (next : UInt32 → Bytes → Except GotErr Fileindex),
      readHdr fi₀ (htobe32 val ++ rest) next = next val rest := by
    intro val rest next
    have hne : htobe32 val ++ rest ≠ [] := fun h0 => by
      have hlen := congrArg List.length h0
      rw [List.length_append, record_be32.length_enc] at hlen
      exact absurd hlen (by simp)
    rw [readHdr, if_neg hne, record_be32.readField_append, ok_bind]
  unfold gotFileindexRead fileindexHdr
  simp only [List.append_assoc, hfield]
  rfl

/-- The entries are in order, and can be read. -/
theorem readEntries_flushed (h : Ordered fi) (hmax : (fi.live.length : ℤ) ≤ INT_MAX)
    (rest : Bytes) :
    readEntries GOT_FILE_INDEX_VERSION fi.live.length empty
        (fi.flushed.flatMap writeFileindexEntry ++ rest)
      = .ok (ofEntries (fi.live.map (fun ie => (fi.entry ie).onDisk)), rest) := by
  have hlen : fi.flushed.length = fi.live.length := List.length_map _
  have hread := @readEntries_append [] fi.flushed rest
  rw [List.nil_append, stored_flushed, hlen] at hread
  refine hread (fun e he => ?_) ?_ (by simpa using hmax)
  · obtain ⟨ie, -, rfl⟩ := List.mem_map.mp he
    refine (isEntry_entry h.isEntry ie).congr rfl ?_
    exact congrArg UInt32.toNat (and_not_and_of_disjoint (fi.entry ie).flags (by decide))
  · rw [List.pairwise_map]
    exact h.inOrder.filter _

/-- **An index is read back** exactly if its count is right. -/
theorem readsBack_iff_of_ordered (h : Ordered fi) :
    fi.ReadsBack sha1 ↔ fi.nentries = fi.live.length := by
  have hlow := h.le_nentries
  have hhigh : fi.nentries ≤ 2 ^ 31 - 1 := h.nentries_le
  have hcount : (UInt32.ofInt fi.nentries).toNat = (fi.nentries % 2 ^ 32).toNat :=
    Nat.mod_eq_of_lt (by omega)
  unfold ReadsBack
  rw [gotFileindexWrite_fst h]
  simp only [gotFileindexRead_hdr, hcount, bind_eq_ok_iff, Prod.exists]
  constructor
  · rintro ⟨_, ⟨fi', rest, hentries, u, hsum, hok⟩, hcontents⟩
    obtain rfl := Except.ok.inj hok
    obtain ⟨hlen, hmax⟩ := readEntries_spec hentries (show (0 : ℤ) ≤ INT_MAX by decide)
    have hlive : fi'.entries.length = fi.live.length := by
      simpa [contents] using congrArg List.length hcontents
    have hle : fi.live.length ≤ (fi.nentries % 2 ^ 32).toNat := by
      rw [← hlive]
      exact hlen.trans_eq (Nat.zero_add _)
    have hmax : ((fi.nentries % 2 ^ 32).toNat : ℤ) ≤ 2 ^ 31 - 1 :=
      le_of_eq_of_le (Int.zero_add _).symm hmax
    -- if there were more to read, the digest would be taken for an entry
    rcases Nat.lt_or_eq_of_le hle with hlt | heq
    · obtain ⟨k, hk⟩ := Nat.exists_eq_add_of_lt hlt
      rw [hk, Nat.add_assoc, readEntries_add,
        readEntries_flushed h ((Int.ofNat_le.mpr hle).trans hmax), ok_bind] at hentries
      obtain ⟨x, hx, -⟩ := bind_eq_ok_iff.mp hentries
      exact absurd hx (readFileindexEntry_short (sha1 _).2)
    · omega
  · intro heq
    have hread := readEntries_flushed h (heq ▸ h.nentries_le)
    have hnat : (fi.nentries % 2 ^ 32).toNat = fi.live.length := by omega
    rw [hnat]
    refine ⟨ofEntries _, ⟨_, _, hread _, (), ?_, rfl⟩, contents_ofEntries _⟩
    have hdigest : ∀ id : Sha1, readField GotErr.fileidxBad SHA1_DIGEST_LENGTH oidOf id.val
        = .ok (id, []) := fun id => record_sha1.readField_eq_ok_iff.mpr (List.append_nil _).symm
    rw [checkSha1, hdigest, ok_bind, ← List.append_assoc, take_sub_length]
    exact check_eq_ok_iff.mpr (not_not.mpr rfl)

/-- **Reading undoes writing** exactly for the indexes with a count that is right, whatever
operations they come from. The header has the count that the operations have kept, while the entries
that are written are those that are not removed; the reader takes as many entries as the header
says, and then the checksum. -/
theorem readsBack_iff (sha1 : Bytes → Sha1) (ops : List FileindexOp)
    (h : Runs.Meets step Allocated empty ops) :
    (Runs.run step empty ops).ReadsBack sha1
      ↔ (Runs.run step empty ops).nentries = (Runs.run step empty ops).live.length :=
  readsBack_iff_of_ordered (h.invariant ordered_empty fun _ _ hs hop => hs.step hop)

/-- A file that is added and staged is read back. -/
theorem orderlyOps_readsBack :
    (Runs.run step empty orderlyOps).ReadsBack (fun _ => zeroSha1) :=
  (readsBack_iff (fun _ => zeroSha1) orderlyOps (by decide +kernel)).mpr (by decide +kernel)

/-- **A file that is removed and added again** makes the index unreadable. -/
theorem readd_not_readsBack :
    ¬∀ (sha1 : Bytes → Sha1) (ops : List FileindexOp), Runs.Meets step Allocated empty ops →
      (Runs.run step empty ops).ReadsBack sha1 := by
  intro h
  have hmeets : Runs.Meets step Allocated empty readdOps := by decide +kernel
  have hordered := hmeets.invariant ordered_empty fun _ _ hs hop => hs.step hop
  have hcount := (readsBack_iff_of_ordered hordered).mp (h (fun _ => zeroSha1) readdOps hmeets)
  exact absurd hcount (by decide +kernel)

end Fileindex

end Got

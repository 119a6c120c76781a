import Got.FileIndex.DiffTree

/-!
# Comparing the file index with a directory

This is how the status of a work tree is found: the file index is compared with
the directory that the work tree is on disk. What is in a directory comes in no
order, so the list of it is sorted first; and a directory that may not be read
is passed over.

Here nothing is skipped. So all is reported exactly if the walk over the index
sees what it has to see, which is the case for an index that was read from its
file.
-/

namespace Got

/-! ## Directories -/

/-- The type of an entry of a directory. -/
inductive DirentType
  | unknown
  | fifo
  | chr
  | dir
  | blk
  | reg
  | lnk
  | sock
  deriving DecidableEq

/-- **An entry of a directory.** -/
structure Dirent where
  dName : Name
  dType : DirentType
  deriving DecidableEq

/-- **What is on disk**, by paths below the root of a work tree: what reading a
directory gives, in any order, and the mode of what a path names. -/
structure OnDisk where
  readdir : List Name → Except Errno (List Dirent)
  lstat : List Name → Except Errno UInt32

/-- The type that belongs to a mode. -/
def direntTypeOf (mode : UInt32) : DirentType :=
  if mode &&& S_IFMT = 0o010000 then .fifo
  else if mode &&& S_IFMT = 0o020000 then .chr
  else if S_ISDIR mode then .dir
  else if mode &&& S_IFMT = 0o060000 then .blk
  else if S_ISLNK mode then .lnk
  else if S_ISREG mode then .reg
  else if mode &&& S_IFMT = 0o140000 then .sock
  else .unknown

/-- `got_path_dirent_type` -/
def gotPathDirentType (disk : OnDisk) (path : List Name) (dent : Dirent) :
    Except GotErr DirentType :=
  if dent.dType ≠ .unknown then .ok dent.dType
  else
    match disk.lstat (path ++ [dent.dName]) with
    | .error e => .error (.errno e)
    | .ok mode => .ok (direntTypeOf mode)

/-- **`read_dirlist`**, given what the directory gives. -/
def readDirlist (path : Str) : List Dirent → List Dirent → Except GotErr (List Dirent)
  | dirlist, [] => .ok dirlist
  | dirlist, de :: dir =>
    if de.dName.val = ['.'] ∨ de.dName.val = ['.', '.']
        ∨ path = [] ∧ de.dName.val = ['.', 'g', 'o', 't'] then
      readDirlist path dirlist dir
    else
      match gotPathlistInsert (fun de => de.dName.val) dirlist de with
      | none => .error .dirDupEntry
      | some dirlist => readDirlist path dirlist dir

/-- Reading a directory into a sorted list keeps it sorted. -/
theorem readDirlist_order {path : Str} {dirlist dir dirlist' : List Dirent}
    (hs : InOrderOf Dirent.dName dirlist) (h : readDirlist path dirlist dir = .ok dirlist') :
    InOrderOf Dirent.dName dirlist' := by
  induction dir generalizing dirlist with
  | nil =>
    obtain rfl := Except.ok.inj h
    exact hs
  | cons de dir ih =>
    rw [readDirlist] at h
    split at h
    · exact ih hs h
    · split at h
      · exact nomatch h
      · next hins => exact ih (gotPathlistInsert_name hs hins).1 h

/-! ## The comparison -/

section Loop

variable (disk : OnDisk) (rootpath : Str) (traverse : List Name → Except GotErr Unit)
  (cb : DiffCb Dirent)

/-- The rest of **`walk_dir`**, after which the next entry of the directory is at
hand: go down into a directory, if that is allowed. -/
def walkDir (diff : DiffLoop Dirent) (de : Dirent) (path : List Name) (ie : Option ℕ)
    (s : WalkState Dirent) : Except GotErr (Option ℕ × WalkState Dirent) := do
  let type ← gotPathDirentType disk path de
  if type = .dir then
    let subpath := path ++ [de.dName]
    match disk.readdir subpath with
    | .error .acces => .ok (ie, s)
    | .error e => .error (.errno e)
    | .ok dir => do
      let subdirlist ← readDirlist (rootpath ++ '/' :: relPath subpath) [] dir
      diff subdirlist subpath ie s
  else .ok (ie, s)

/-- The callback `diff_traverse` is called before the loop over a directory is
entered. -/
def enterDir (loop : DiffLoop Dirent) : DiffLoop Dirent := fun dirlist path ie s => do
  traverse path
  loop dirlist path ie s

/-- The loop of `diff_fileindex_dir`. -/
def diffDirLoop : ℕ → DiffLoop Dirent
  | 0, _, _, _, _ => .error .fuel
  | fuel + 1, de :: dirlist, path, some ie, s =>
    match cmpItem (s.fi.entry ie) path de.dName with
    | .eq => do
      let s ← s.report cb (.oldNew ie de path)
      let (ie, s) ← walkDir disk rootpath (enterDir traverse (diffDirLoop fuel)) de path
        (s.fi.walkFileindex ie) s
      diffDirLoop fuel dirlist path ie s
    | .lt => do
      let s ← s.report cb (.old ie path)
      diffDirLoop fuel (de :: dirlist) path (s.fi.walkFileindex ie) s
    | .gt => do
      let s ← s.report cb (.new de path)
      let (ie, s) ← walkDir disk rootpath (enterDir traverse (diffDirLoop fuel)) de path (some ie) s
      diffDirLoop fuel dirlist path ie s
  | fuel + 1, [], path, some ie, s =>
    if gotPathIsChild (s.fi.entry ie).path (relPath path) then do
      let s ← s.report cb (.old ie path)
      diffDirLoop fuel [] path (s.fi.walkFileindex ie) s
    else .ok (some ie, s)
  | fuel + 1, de :: dirlist, path, none, s => do
    let s ← s.report cb (.new de path)
    let (ie, s) ← walkDir disk rootpath (enterDir traverse (diffDirLoop fuel)) de path none s
    diffDirLoop fuel dirlist path ie s
  | _ + 1, [], _, none, s => .ok (none, s)

/-- **`diff_fileindex_dir`** -/
def diffFileindexDir (fuel : ℕ) : DiffLoop Dirent :=
  enterDir traverse (diffDirLoop disk rootpath traverse cb fuel)

/-- **`got_fileindex_diff_dir`**, given what the directory that was opened by the
caller gives. -/
def gotFileindexDiffDir (fuel : ℕ) (fi : Fileindex) (dir : List Dirent) (path : List Name) :
    Except GotErr (WalkState Dirent) := do
  let dirlist ← readDirlist (relPath path) [] dir
  let (_, s) ← diffFileindexDir disk rootpath traverse cb fuel dirlist path
    (fi.walkStart (relPath path)) ⟨fi, []⟩
  return s

/-- What is below an entry of a directory. -/
def openSubdir (path : List Name) (de : Dirent) : Except GotErr (Option (List Dirent)) := do
  let type ← gotPathDirentType disk path de
  if type = .dir then
    let subpath := path ++ [de.dName]
    match disk.readdir subpath with
    | .error .acces => .ok none
    | .error e => .error (.errno e)
    | .ok dir => do
      let subdirlist ← readDirlist (rootpath ++ '/' :: relPath subpath) [] dir
      traverse subpath
      .ok (some subdirlist)
  else .ok none

end Loop

variable {disk : OnDisk} {rootpath : Str} {traverse : List Name → Except GotErr Unit}
  {cb : DiffCb Dirent}

/-- Walking below an entry through `open_subdir` is the walk of the directory by the source. -/
theorem walkBelow_openSubdir (loop : DiffLoop Dirent) (de : Dirent) (p : List Name)
    (ie : Option ℕ) (s : WalkState Dirent) :
    walkBelow Dirent.dName (openSubdir disk rootpath traverse) loop de p ie s
      = walkDir disk rootpath (enterDir traverse loop) de p ie s := by
  unfold walkBelow walkDir openSubdir
  cases gotPathDirentType disk p de with
  | error e => rfl
  | ok type =>
    rw [ok_bind, ok_bind]
    by_cases hdir : type = .dir
    · rw [if_pos hdir, if_pos hdir]
      dsimp only
      cases disk.readdir (p ++ [de.dName]) with
      | error e => cases e <;> rfl
      | ok dir =>
        dsimp only
        cases readDirlist (rootpath ++ '/' :: relPath (p ++ [de.dName])) [] dir with
        | error e => rfl
        | ok subdirlist =>
          rw [ok_bind, ok_bind, enterDir]
          cases traverse (p ++ [de.dName]) <;> rfl
    · rw [if_neg hdir, if_neg hdir]
      rfl

/-- **The comparison with a directory is a walk over both.** -/
theorem mergeWalk_diffDirLoop :
    MergeWalk cb Dirent.dName (fun _ => false) (openSubdir disk rootpath traverse)
      (diffDirLoop disk rootpath traverse cb) where
  done _ _ _ := rfl
  done_of_not_child fuel p a s hchild := by
    rw [diffDirLoop, if_neg (by simp [hchild])]
  old fuel items p a next s s' hchild hcmp hreport _ hnext := by
    cases items with
    | nil =>
      rw [diffDirLoop, if_pos hchild, hreport, ok_bind, hnext]
    | cons de dirlist =>
      rw [diffDirLoop, hcmp de rfl]
      dsimp only
      rw [hreport, ok_bind, hnext]
  oldNew fuel de dirlist p a s s' _ hcmp hreport := by
    rw [diffDirLoop, hcmp]
    dsimp only
    rw [show s.report cb (.oldNew a de p) = .ok s' from hreport, ok_bind, walkBelow_openSubdir]
  new fuel de dirlist p a s s' hcmp hreport := by
    rw [diffDirLoop, hcmp]
    dsimp only
    rw [hreport, ok_bind, walkBelow_openSubdir]
  newAlone fuel de dirlist p s s' hreport := by
    rw [diffDirLoop, show s.report cb (.new de p) = .ok s' from hreport, ok_bind,
      walkBelow_openSubdir]

/-- A directory that is opened is listed in the order of the names. -/
theorem openSubdir_sorted (p : List Name) (de : Dirent) (dirlist : List Dirent)
    (h : openSubdir disk rootpath traverse p de = .ok (some dirlist)) :
    InOrderOf Dirent.dName dirlist := by
  obtain ⟨type, -, h⟩ := bind_eq_ok_iff.mp h
  split at h
  · dsimp only at h
    split at h
    · exact nomatch h
    · exact nomatch h
    · obtain ⟨subdirlist, hread, h⟩ := bind_eq_ok_iff.mp h
      obtain ⟨-, -, h⟩ := bind_eq_ok_iff.mp h
      obtain rfl := Option.some.inj (Except.ok.inj h)
      exact readDirlist_order List.Pairwise.nil hread
  · exact nomatch h

/-- **When all is reported** by a comparison with a directory, of which all
directories that may be read can be read. -/
theorem gotFileindexDiffDir_law {fi : Fileindex} {dir dirlist : List Dirent} {path : List Name}
    {t : Listing Dirent} {fuel : ℕ} (hcb : ∀ rs r fi, ∃ ops, cb rs r fi = .ok ops)
    (htraverse : traverse path = .ok ()) (hfi : fi.Ordered)
    (hshort : ∀ ie ∈ fi.entries, (fi.entry ie).path.length ≤ MAX_PATH_LEN)
    (hread : readDirlist (relPath path) [] dir = .ok dirlist)
    (hopens : t.Opens Dirent.dName (openSubdir disk rootpath traverse) path dirlist)
    (hfuel : fi.entries.length + t.size < fuel) :
    ∃ s, gotFileindexDiffDir disk rootpath traverse cb fuel fi dir path = .ok s
      ∧ (fi.ReportsAll Dirent.dName path (t.flat Dirent.dName path) s.reported
        ↔ fi.seen path = fi.liveBelow path) := by
  obtain ⟨ie, s, hok, hlaw⟩ := Fileindex.law_iff mergeWalk_diffDirLoop hcb hfi hshort
    (hopens.sorted openSubdir_sorted (readDirlist_order List.Pairwise.nil hread)).2 hopens hfuel
  have hall : (t.flat Dirent.dName path).filter (fun _ => !false) = t.flat Dirent.dName path :=
    List.filter_eq_self.mpr fun _ _ => rfl
  rw [hall, Fileindex.seesAll_iff_of_no_skip] at hlaw
  refine ⟨s, ?_, hlaw⟩
  rw [gotFileindexDiffDir, hread, ok_bind, diffFileindexDir, enterDir, htraverse, ok_bind, hok]
  rfl

namespace Fileindex

/-- **When all is reported**, by a comparison with a tree and by one with a directory. Both walk the
index and the other side in the order of paths, while a callback may change the index. What decides
is what the walk sees of the index: it passes over entries that are marked, but for the first one of
all; and the branches for trees do not treat submodules alike. -/
theorem reportsAll_iff_seesAll {fi : Fileindex} (hfi : fi.Ordered)
    (hshort : ∀ ie ∈ fi.entries, (fi.entry ie).path.length ≤ MAX_PATH_LEN) :
    (∀ (cb : DiffCb TreeEntry) (tree : List TreeEntry) (path : List Name) (t : Listing TreeEntry)
        (fuel : ℕ), (∀ rs r fi, ∃ ops, cb rs r fi = .ok ops) → NameOrder tree →
      t.Opens TreeEntry.name openSubtree path tree → fi.entries.length + t.size < fuel →
      ∃ s, gotFileindexDiffTree cb fuel fi tree path = .ok s
        ∧ (fi.ReportsAll TreeEntry.name path
            ((t.flat TreeEntry.name path).filter (fun x => !x.2.isSubmodule)) s.reported
          ↔ fi.SeesAll TreeEntry.isSubmodule path (t.flat TreeEntry.name path)))
    ∧ ∀ (disk : OnDisk) (rootpath : Str) (traverse : List Name → Except GotErr Unit)
        (cb : DiffCb Dirent) (dir dirlist : List Dirent) (path : List Name) (t : Listing Dirent)
        (fuel : ℕ), (∀ rs r fi, ∃ ops, cb rs r fi = .ok ops) → traverse path = .ok () →
      readDirlist (relPath path) [] dir = .ok dirlist →
      t.Opens Dirent.dName (openSubdir disk rootpath traverse) path dirlist →
      fi.entries.length + t.size < fuel →
      ∃ s, gotFileindexDiffDir disk rootpath traverse cb fuel fi dir path = .ok s
        ∧ (fi.ReportsAll Dirent.dName path (t.flat Dirent.dName path) s.reported
          ↔ fi.seen path = fi.liveBelow path) :=
  ⟨fun _ _ _ _ _ hcb htree hopens hfuel =>
      gotFileindexDiffTree_law hcb hfi hshort htree hopens hfuel,
    fun _ _ _ _ _ _ _ _ _ hcb htraverse hread hopens hfuel =>
      gotFileindexDiffDir_law hcb htraverse hfi hshort hread hopens hfuel⟩

/-! ## A submodule -/

def aName : Name := ⟨['a'], isName_a⟩

/-- The path `b`. -/
def bPath : FilePath :=
  ⟨[⟨['b'], isName_b⟩], List.cons_ne_nil _ _, by simp [relPath, slashed]⟩

/-- An index with one file. -/
def bIndex : Fileindex := ⟨[FileindexEntry.alloc (relPath bPath.1)], [0], 1⟩

/-- An index of one entry is in order. -/
theorem ordered_bIndex : bIndex.Ordered where
  isEntry e he := by
    obtain rfl := List.mem_singleton.mp he
    exact FileindexEntry.isEntry_alloc bPath
  valid ie hie := by
    obtain rfl := List.mem_singleton.mp hie
    exact Nat.one_pos
  inOrder := List.pairwise_singleton _ 0
  le_nentries := by decide
  nentries_le := by decide

/-- A submodule, which comes before the file. -/
def submodule : TreeEntry := ⟨S_IFDIR ||| S_IFLNK, aName, .foreign zeroSha1⟩

/-- **A submodule is reported as new**, as there is a file after it. -/
theorem submodule_not_reportsAll :
    ∃ s, gotFileindexDiffTree (fun _ _ _ => .ok []) 3 bIndex [submodule] [] = .ok s
      ∧ ¬bIndex.ReportsAll TreeEntry.name []
        (([([aName], submodule)] : List (List Name × TreeEntry)).filter
          (fun x => !x.2.isSubmodule)) s.reported := by
  refine ⟨⟨bIndex, [.new submodule [], .old 0 []]⟩, rfl, fun h => ?_⟩
  have hmem := ((h.new_iff submodule []).mp List.mem_cons_self).1
  exact absurd hmem (by decide +kernel)

/-- A directory with the file in it. -/
def bDir : List Dirent := [⟨⟨['b'], isName_b⟩, .reg⟩]

/-- Nothing else is on disk. -/
def noDisk : OnDisk := ⟨fun _ => .error .noent, fun _ => .error .noent⟩

/-- The index compared with a tree, and with a directory. -/
theorem bIndex_reportsAll_iff :
    (∃ s, gotFileindexDiffTree (fun _ _ _ => .ok []) 4 bIndex [submodule] [] = .ok s
      ∧ (bIndex.ReportsAll TreeEntry.name []
          (((Listing.cons submodule .nil .nil).flat TreeEntry.name []).filter
            (fun x => !x.2.isSubmodule)) s.reported
        ↔ bIndex.SeesAll TreeEntry.isSubmodule []
          ((Listing.cons submodule .nil .nil).flat TreeEntry.name [])))
    ∧ ∃ s, gotFileindexDiffDir noDisk ['/'] (fun _ => .ok ()) (fun _ _ _ => .ok [.remove]) 4 bIndex
        bDir [] = .ok s
      ∧ (bIndex.ReportsAll Dirent.dName []
          ((Listing.cons ⟨⟨['b'], by decide⟩, .reg⟩ .nil .nil).flat Dirent.dName []) s.reported
        ↔ bIndex.seen [] = bIndex.liveBelow []) := by
  have h := reportsAll_iff_seesAll ordered_bIndex (by decide +kernel)
  refine ⟨h.1 _ [submodule] [] (.cons submodule .nil .nil) 4 (fun _ _ _ => ⟨[], rfl⟩)
      (List.pairwise_singleton _ _) ⟨[], rfl, rfl, Or.inl ⟨rfl, rfl⟩⟩ (by decide),
    h.2 noDisk _ _ _ bDir bDir [] (.cons ⟨⟨['b'], by decide⟩, .reg⟩ .nil .nil) 4
      (fun _ _ _ => ⟨[.remove], rfl⟩) rfl rfl ⟨[], rfl, rfl, Or.inl ⟨rfl, rfl⟩⟩ (by decide)⟩

end Fileindex

end Got

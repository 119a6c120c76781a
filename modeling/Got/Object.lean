import Mathlib.Data.List.Sort
import Got.Memory
import Got.ObjectFile.ParseTree
import Got.PathOrder

/-!
# Objects of the repository

The work tree code reads blobs and trees and makes new ones. What it knows an
object by is an id, which is a digest of the content; here the id of an object
is the object itself, which is what a digest without collisions amounts to. So
the database in which objects are stored does not appear: to create an object
is to have its id.

A tree comes out of the database in the order of its names, and without two
entries of the same name, because this is how it is parsed
(`gotObjectOpenAsTree`). A tree that is created is sorted another way and its
modes are made uniform (`gotObjectTreeCreate`); reading it back gives what was
put in (`open_gotObjectTreeCreate`).

What is at a path in a tree is `entryAt`, and the files of a tree are
`fileAt`.
-/

namespace Got

/-! ## Modes -/

def S_IFMT : UInt32 := 0o170000
def S_IFREG : UInt32 := 0o100000
def S_IFDIR : UInt32 := 0o040000
def S_IFLNK : UInt32 := 0o120000
def S_IXUSR : UInt32 := 0o100
def S_IXGRP : UInt32 := 0o010
def S_IXOTH : UInt32 := 0o001
/-- `S_IRWXU | S_IRWXG | S_IRWXO` -/
def S_IRWX : UInt32 := 0o777
def GOT_DEFAULT_FILE_MODE : UInt32 := 0o100644

def S_ISREG (mode : UInt32) : Bool := mode &&& S_IFMT = S_IFREG
def S_ISDIR (mode : UInt32) : Bool := mode &&& S_IFMT = S_IFDIR
def S_ISLNK (mode : UInt32) : Bool := mode &&& S_IFMT = S_IFLNK

/-- The kinds of tree entries. -/
inductive EntryKind
  | regular
  | executable
  | submodule
  | symlink
  | directory
  deriving DecidableEq, Repr

/-- The mode that is written for a kind of entry. -/
def EntryKind.mode : EntryKind → UInt32
  | .regular => GOT_DEFAULT_FILE_MODE
  | .executable => GOT_DEFAULT_FILE_MODE ||| (S_IXUSR ||| S_IXGRP ||| S_IXOTH)
  | .submodule => S_IFDIR ||| S_IFLNK
  | .symlink => S_IFLNK
  | .directory => S_IFDIR

/-- The kind of entry a mode stands for. -/
def kindOf (mode : UInt32) : Option EntryKind :=
  if S_ISREG mode then
    some (if mode &&& (S_IXUSR ||| S_IXGRP ||| S_IXOTH) ≠ 0 then .executable else .regular)
  else if mode &&& S_IFMT = S_IFDIR ||| S_IFLNK then some .submodule
  else if S_ISLNK mode then some .symlink
  else if S_ISDIR mode then some .directory
  else none

/-! ## Trees -/

mutual

/-- **An object**, which is also its id. -/
inductive Object
  | blob (content : Bytes)
  | tree (entries : Entries)
  /-- The commit of a submodule, which is in another repository. -/
  | foreign (id : Sha1)

/-- The entries of a tree, in the order in which they are stored. -/
inductive Entries
  | nil
  | cons (mode : UInt32) (name : Name) (id : Object) (rest : Entries)

end

deriving instance DecidableEq for Object, Entries

/-- `struct got_tree_entry`, with the object in place of its id. -/
structure TreeEntry where
  mode : UInt32
  name : Name
  id : Object
  deriving DecidableEq

/-- The entries of a tree object as a list. -/
def Entries.toList : Entries → List TreeEntry
  | .nil => []
  | .cons mode name id rest => ⟨mode, name, id⟩ :: rest.toList

/-- A tree object of a list of entries. -/
def Entries.ofList : List TreeEntry → Entries
  | [] => .nil
  | te :: es => .cons te.mode te.name te.id (.ofList es)

theorem Entries.toList_ofList (es : List TreeEntry) : (ofList es).toList = es := by
  induction es with
  | nil => rfl
  | cons te es ih => rw [ofList, toList, ih]

/-- `got_object_tree_entry_is_submodule` -/
def TreeEntry.isSubmodule (te : TreeEntry) : Bool := te.mode &&& S_IFMT = S_IFDIR ||| S_IFLNK

/-- The loop of `got_object_parse_tree`. -/
def parseTree : List TreeEntry → List TreeEntry → Except GotErr (List TreeEntry)
  | [], entries => .ok entries
  | pte :: rest, entries =>
    match gotPathlistInsert (fun te => te.name.val) entries pte with
    | none => .error .treeDupEntry
    | some entries => parseTree rest entries

/-- An entry that was read from the content of an object. Only a name that a path can
have may be looked for, and the digest is not that of an object which is there. -/
def ObjectFile.ParsedTreeEntry.entry? (pte : ObjectFile.ParsedTreeEntry) : Option TreeEntry :=
  if h : pte.name ≠ [] ∧ '/' ∉ pte.name then some ⟨pte.mode, ⟨pte.name, h⟩, .foreign pte.id⟩
  else none

/-- **Open a tree**: the entries in the order of their names. What is not a tree is
not told from one, so the content of a blob is read as if it was that of a tree. -/
def gotObjectOpenAsTree : Object → Except GotErr (List TreeEntry)
  | .tree entries => parseTree entries.toList []
  | .blob content => do
    let entries ← ObjectFile.gotObjectParseTree content
    parseTree (entries.filterMap ObjectFile.ParsedTreeEntry.entry?) []
  | .foreign _ => .error .noObj

/-- A tree is not parsed only because two of its entries have the same name. -/
theorem parseTree_eq_error {rest es : List TreeEntry} {e : GotErr}
    (h : parseTree rest es = .error e) : e = .treeDupEntry := by
  induction rest generalizing es with
  | nil => exact nomatch h
  | cons te rest ih =>
    rw [parseTree] at h
    split at h
    · exact (Except.error.inj h).symm
    · exact ih h

/-- How opening a tree fails. -/
theorem gotObjectOpenAsTree_eq_error {o : Object} {e : GotErr}
    (h : gotObjectOpenAsTree o = .error e) : e ∈ [.noObj, .badObjData, .treeDupEntry] := by
  cases o with
  | tree entries =>
    obtain rfl := parseTree_eq_error h
    decide
  | blob content =>
    rcases bind_eq_error_iff.mp h with h | ⟨entries, -, h⟩
    · exact List.mem_cons_of_mem _ (ObjectFile.gotObjectParseTree_eq_error h)
    · obtain rfl := parseTree_eq_error h
      decide
  | foreign id =>
    obtain rfl := Except.error.inj h
    decide

/-- `got_object_open_as_blob`, and all it can be read for. -/
def gotObjectOpenAsBlob : Object → Except GotErr Bytes
  | .blob content => .ok content
  | .tree _ => .error .objType
  | .foreign _ => .error .noObj

/-- `find_entry_by_name` -/
def findEntryByName : List TreeEntry → Str → Option TreeEntry
  | [], _ => none
  | te :: es, name =>
    match strcmp (te.name.val.take name.length) name with
    | .lt => findEntryByName es name
    | .gt => none
    | .eq => if te.name.val.length = name.length then some te else findEntryByName es name

/-- The mode that is written for a tree entry. -/
def teMode2str (te : TreeEntry) : Except GotErr UInt32 :=
  if S_ISREG te.mode then
    if te.mode &&& (S_IXUSR ||| S_IXGRP ||| S_IXOTH) ≠ 0
    then .ok (GOT_DEFAULT_FILE_MODE ||| (S_IXUSR ||| S_IXGRP ||| S_IXOTH))
    else .ok GOT_DEFAULT_FILE_MODE
  else if te.isSubmodule then .ok (S_IFDIR ||| S_IFLNK)
  else if S_ISLNK te.mode then .ok S_IFLNK
  else if S_ISDIR te.mode then .ok S_IFDIR
  else .error .badFiletype

/-- Git expects directory entries to be sorted with an imaginary slash appended
to their name. -/
def sortTreeEntriesTheWayGitLikesIt (te1 te2 : TreeEntry) : Ordering :=
  strcmp (te1.name.val ++ if S_ISDIR te1.mode then ['/'] else [])
    (te2.name.val ++ if S_ISDIR te2.mode then ['/'] else [])

/-- **Create a tree** of a list of entries. The sort of the C library is
stable. -/
def gotObjectTreeCreate (paths : List TreeEntry) : Except GotErr Object := do
  let sorted := paths.insertionSort (fun a b => sortTreeEntriesTheWayGitLikesIt a b ≠ .gt)
  let written ← sorted.mapM (fun te => do
    let mode ← teMode2str te
    return { te with mode })
  return .tree (.ofList written)

/-! ## What is at a path -/

/-- **The entry at a path.** -/
def entryAt (es : List TreeEntry) : List Name → Option TreeEntry
  | [] => none
  | [n] => findEntryByName es n.val
  | n :: m :: path =>
    match findEntryByName es n.val with
    | none => none
    | some te =>
      if S_ISDIR te.mode then
        match gotObjectOpenAsTree te.id with
        | .ok es => entryAt es (m :: path)
        | .error _ => none
      else none

/-- A file: its kind, if the mode stands for one, and what is in it. -/
abbrev File := Option EntryKind × Object

/-- What an entry says of a file: its kind and its content, or nothing for a directory. -/
def TreeEntry.file? (te : TreeEntry) : Option File :=
  if S_ISDIR te.mode then none else some (kindOf te.mode, te.id)

/-- **The files of a tree.** -/
def fileAt (es : List TreeEntry) (path : List Name) : Option File :=
  (entryAt es path).bind TreeEntry.file?

/-- The entries of the directory an entry stands for. -/
def TreeEntry.subtree (te : TreeEntry) : Option (List TreeEntry) :=
  if S_ISDIR te.mode then (gotObjectOpenAsTree te.id).toOption else none

/-- The entry at a path of several names is below the subtree of the first. -/
theorem entryAt_cons (es : List TreeEntry) (n m : Name) (path : List Name) :
    entryAt es (n :: m :: path)
      = (findEntryByName es n.val).bind (fun te => te.subtree.bind (entryAt · (m :: path))) := by
  rw [entryAt]
  cases findEntryByName es n.val with
  | none => rfl
  | some te =>
    dsimp only
    rw [Option.bind_some, TreeEntry.subtree]
    split
    · cases gotObjectOpenAsTree te.id <;> rfl
    · rfl

theorem fileAt_singleton (es : List TreeEntry) (n : Name) :
    fileAt es [n] = (findEntryByName es n.val).bind TreeEntry.file? := rfl

/-- The file at a path of several names is below the subtree of the first. -/
theorem fileAt_cons (es : List TreeEntry) (n m : Name) (path : List Name) :
    fileAt es (n :: m :: path)
      = (findEntryByName es n.val).bind (fun te => te.subtree.bind (fileAt · (m :: path))) := by
  unfold fileAt
  rw [entryAt_cons]
  cases findEntryByName es n.val with
  | none => rfl
  | some te =>
    rw [Option.bind_some, Option.bind_some]
    cases te.subtree with
    | none => rfl
    | some es => rfl

/-! ## Reading trees -/

/-- Names as the order of entries. -/
abbrev NameOrder (es : List TreeEntry) : Prop := InOrderOf TreeEntry.name es

/-- Opening a tree puts its entries in order and loses none. -/
theorem parseTree_spec {rest es es' : List TreeEntry} (hs : NameOrder es)
    (h : parseTree rest es = .ok es') : NameOrder es' ∧ es'.Perm (rest ++ es) := by
  induction rest generalizing es with
  | nil =>
    obtain rfl := Except.ok.inj h
    exact ⟨hs, List.Perm.refl _⟩
  | cons pte rest ih =>
    rw [parseTree] at h
    split at h
    · exact nomatch h
    · next es₁ hins =>
      obtain ⟨hsorted, hperm⟩ := gotPathlistInsert_name hs hins
      obtain ⟨hs', hperm'⟩ := ih hsorted h
      exact ⟨hs', hperm'.trans ((hperm.append_left rest).trans List.perm_middle)⟩

/-- Entries whose names are distinct can be read. -/
theorem exists_parseTree {rest es : List TreeEntry} (hs : NameOrder es)
    (hd : ((rest ++ es).map TreeEntry.name).Nodup) : ∃ es', parseTree rest es = .ok es' := by
  induction rest generalizing es with
  | nil => exact ⟨es, rfl⟩
  | cons pte rest ih =>
    rw [parseTree]
    cases hins : gotPathlistInsert (fun te : TreeEntry => te.name.val) es pte with
    | none =>
      obtain ⟨te, hte, heq⟩ := exists_of_insert_name_eq_none hins
      refine absurd ?_ (List.nodup_cons.mp hd).1
      rw [← heq]
      exact List.mem_map_of_mem (List.mem_append_right rest hte)
    | some es₁ =>
      obtain ⟨hsorted, hperm⟩ := gotPathlistInsert_name hs hins
      refine ih hsorted ?_
      refine (List.Perm.nodup_iff (List.Perm.map _ ?_)).mp hd
      exact (List.perm_middle.symm.trans (hperm.symm.append_left rest))

/-- **An opened tree** is in order. -/
theorem open_order {o : Object} {es : List TreeEntry} (h : gotObjectOpenAsTree o = .ok es) :
    NameOrder es := by
  cases o with
  | tree entries => exact (parseTree_spec List.Pairwise.nil h).1
  | blob content =>
    obtain ⟨entries, -, h⟩ := bind_eq_ok_iff.mp h
    exact (parseTree_spec List.Pairwise.nil h).1
  | foreign id => exact nomatch h

/-- Cutting two strings at the same length does not turn their order round. -/
theorem not_take_lt_take {as bs : Str} (h : as < bs) (n : ℕ) : ¬bs.take n < as.take n := by
  induction as generalizing bs n with
  | nil => rw [List.take_nil]; exact List.not_lt_nil _
  | cons a as ih =>
    cases bs with
    | nil => exact absurd h (List.not_lt_nil _)
    | cons b bs =>
      cases n with
      | zero => exact List.not_lt_nil _
      | succ n =>
        rw [List.take_succ_cons, List.take_succ_cons, List.cons_lt_cons_iff]
        rcases List.cons_lt_cons_iff.mp h with hlt | ⟨rfl, hlt⟩
        · rintro (hlt' | ⟨rfl, -⟩)
          · exact lt_asymm hlt hlt'
          · exact lt_irrefl _ hlt
        · rintro (hlt' | ⟨-, hlt'⟩)
          · exact lt_irrefl _ hlt'
          · exact ih hlt n hlt'

/-- **Finding an entry.** The search ends early, which is right because of the
order. -/
theorem findEntryByName_eq_some_iff {es : List TreeEntry} (h : NameOrder es) {n : Name}
    {te : TreeEntry} : findEntryByName es n.val = some te ↔ te ∈ es ∧ te.name = n := by
  induction es with
  | nil => exact ⟨fun h => (nomatch h), fun h => absurd h.1 List.not_mem_nil⟩
  | cons te' es ih =>
    obtain ⟨hlt, hes⟩ := List.pairwise_cons.mp h
    have ih := ih hes
    rw [findEntryByName]
    split
    · next hcmp =>
      rw [ih]
      refine ⟨fun h => ⟨List.mem_cons_of_mem _ h.1, h.2⟩, fun ⟨hmem, hname⟩ => ⟨?_, hname⟩⟩
      refine (List.mem_cons.mp hmem).resolve_left ?_
      rintro rfl
      rw [hname, List.take_length] at hcmp
      rw [strcmp_eq_linCmp, linCmp_self] at hcmp
      exact nomatch hcmp
    · next hcmp =>
      rw [strcmp_eq_linCmp] at hcmp
      have hgt := linCmp_eq_gt_iff.mp hcmp
      refine ⟨fun h => (nomatch h), fun ⟨hmem, hname⟩ => ?_⟩
      rcases List.mem_cons.mp hmem with rfl | hmem
      · rw [hname, List.take_length] at hgt
        exact absurd hgt (lt_irrefl _)
      · -- the names behind are still larger
        have hle := not_take_lt_take (hlt te hmem) n.val.length
        rw [hname, List.take_length] at hle
        exact absurd hgt hle
    · next hcmp =>
      rw [strcmp_eq_linCmp] at hcmp
      have heq := linCmp_eq_eq_iff.mp hcmp
      split
      · next hlen =>
        have hname' : te'.name = n := by
          rw [← hlen, List.take_length] at heq
          exact Subtype.ext heq
        constructor
        · intro h
          obtain rfl := Option.some.inj h
          exact ⟨List.mem_cons_self, hname'⟩
        · rintro ⟨hmem, hname⟩
          rcases List.mem_cons.mp hmem with rfl | hmem
          · rfl
          · have := hlt te hmem
            rw [hname, hname'] at this
            exact absurd this (lt_irrefl _)
      · next hlen =>
        rw [ih]
        refine ⟨fun h => ⟨List.mem_cons_of_mem _ h.1, h.2⟩, fun ⟨hmem, hname⟩ => ⟨?_, hname⟩⟩
        refine (List.mem_cons.mp hmem).resolve_left ?_
        rintro rfl
        exact hlen (by rw [hname])

/-- An entry of an opened tree is at its name. -/
theorem findEntryByName_of_mem {es : List TreeEntry} (h : NameOrder es) {te : TreeEntry}
    (hte : te ∈ es) : findEntryByName es te.name.val = some te :=
  (findEntryByName_eq_some_iff h).mpr ⟨hte, rfl⟩

/-- In a sorted tree a name is not found exactly when no entry has it. -/
theorem findEntryByName_eq_none_iff {es : List TreeEntry} (h : NameOrder es) {n : Name} :
    findEntryByName es n.val = none ↔ ∀ te ∈ es, te.name ≠ n := by
  refine ⟨fun hnone te hte hname => ?_, fun hno => ?_⟩
  · rw [← hname, findEntryByName_of_mem h hte] at hnone
    exact nomatch hnone
  · cases hf : findEntryByName es n.val with
    | none => rfl
    | some te =>
      obtain ⟨hte, hname⟩ := (findEntryByName_eq_some_iff h).mp hf
      exact absurd hname (hno te hte)

/-! ## Writing trees -/

/-- The mode that is written for an entry is of the same kind as the mode it has. -/
theorem kindOf_teMode2str {te : TreeEntry} {mode : UInt32} (h : teMode2str te = .ok mode) :
    kindOf mode = kindOf te.mode ∧ S_ISDIR mode = S_ISDIR te.mode := by
  unfold teMode2str TreeEntry.isSubmodule at h
  unfold kindOf
  by_cases hreg : S_ISREG te.mode
  · rw [if_pos hreg] at h
    have hdir : S_ISDIR te.mode = false := by
      unfold S_ISREG S_ISDIR at *
      rw [of_decide_eq_true hreg]
      rfl
    rw [if_pos hreg, hdir]
    split at h
    · next hx =>
      obtain rfl := Except.ok.inj h
      rw [if_pos hx]
      exact ⟨rfl, rfl⟩
    · next hx =>
      obtain rfl := Except.ok.inj h
      rw [if_neg hx]
      exact ⟨rfl, rfl⟩
  rw [if_neg hreg] at h ⊢
  by_cases hsub : te.mode &&& S_IFMT = S_IFDIR ||| S_IFLNK
  · rw [if_pos (decide_eq_true hsub)] at h
    obtain rfl := Except.ok.inj h
    rw [if_pos hsub]
    refine ⟨rfl, ?_⟩
    unfold S_ISDIR
    rw [hsub]
    rfl
  rw [if_neg (fun hd => hsub (of_decide_eq_true hd))] at h
  rw [if_neg hsub]
  by_cases hlnk : S_ISLNK te.mode
  · rw [if_pos hlnk] at h
    obtain rfl := Except.ok.inj h
    rw [if_pos hlnk]
    refine ⟨rfl, ?_⟩
    unfold S_ISDIR
    rw [of_decide_eq_true hlnk]
    rfl
  rw [if_neg hlnk] at h ⊢
  split at h
  · next hdir =>
    obtain rfl := Except.ok.inj h
    rw [if_pos hdir, hdir]
    exact ⟨rfl, rfl⟩
  · exact nomatch h

/-- Every element of the left list has its partner in the right one. -/
theorem forall₂_mem_left {α β : Type} {R : α → β → Prop} {as : List α} {bs : List β}
    (h : List.Forall₂ R as bs) {a : α} (ha : a ∈ as) : ∃ b ∈ bs, R a b := by
  induction h with
  | nil => exact absurd ha List.not_mem_nil
  | cons hab _ ih =>
    rcases List.mem_cons.mp ha with rfl | ha
    · exact ⟨_, List.mem_cons_self, hab⟩
    · obtain ⟨b, hb, hR⟩ := ih ha
      exact ⟨b, List.mem_cons_of_mem _ hb, hR⟩

/-- What is written for an entry. -/
def Written (te te' : TreeEntry) : Prop :=
  ∃ mode, teMode2str te = .ok mode ∧ te' = { te with mode }

/-- **A tree that was created can be opened**, and has the entries that were
written. -/
theorem open_gotObjectTreeCreate {paths : List TreeEntry} {o : Object}
    (hd : (paths.map TreeEntry.name).Nodup) (h : gotObjectTreeCreate paths = .ok o) :
    ∃ es, gotObjectOpenAsTree o = .ok es
      ∧ (∀ te ∈ paths, ∃ te' ∈ es, Written te te') ∧ ∀ te' ∈ es, ∃ te ∈ paths, Written te te' := by
  obtain ⟨written, hw, h⟩ := bind_eq_ok_iff.mp h
  obtain rfl := Except.ok.inj h
  have hw := mapM_eq_ok_iff.mp hw
  have hw' : List.Forall₂ Written
      (paths.insertionSort (fun a b => sortTreeEntriesTheWayGitLikesIt a b ≠ .gt)) written := by
    refine hw.imp (fun te te' hte => ?_)
    obtain ⟨mode, hmode, hte⟩ := bind_eq_ok_iff.mp hte
    exact ⟨mode, hmode, (Except.ok.inj hte).symm⟩
  have hperm := List.perm_insertionSort
    (fun a b => sortTreeEntriesTheWayGitLikesIt a b ≠ .gt) paths
  have hnames : (paths.insertionSort (fun a b => sortTreeEntriesTheWayGitLikesIt a b ≠ .gt)).map
      TreeEntry.name = written.map TreeEntry.name := by
    rw [← List.forall₂_eq_eq_eq, List.forall₂_map_left_iff, List.forall₂_map_right_iff]
    exact hw'.imp (fun te te' ⟨_, _, hte⟩ => by rw [hte])
  obtain ⟨es, hes⟩ : ∃ es, parseTree written [] = .ok es := exists_parseTree List.Pairwise.nil (by
    rw [List.append_nil, ← hnames]
    exact ((hperm.map TreeEntry.name).nodup_iff).mpr hd)
  have hmem : ∀ te, te ∈ es ↔ te ∈ written := by
    intro te
    rw [(parseTree_spec List.Pairwise.nil hes).2.mem_iff, List.append_nil]
  refine ⟨es, ?_, fun te hte => ?_, fun te' hte' => ?_⟩
  · rw [gotObjectOpenAsTree, Entries.toList_ofList, hes]
  · obtain ⟨te', hte', hR⟩ := forall₂_mem_left hw' (hperm.mem_iff.mpr hte)
    exact ⟨te', (hmem te').mpr hte', hR⟩
  · obtain ⟨te, hte, hR⟩ := forall₂_mem_left hw'.flip ((hmem te').mp hte')
    exact ⟨te, hperm.mem_iff.mp hte, hR⟩

/-! ## Commits -/

/-- What a commit records besides its tree and its parents. -/
structure CommitInfo where
  author : Str
  authorTime : ℤ
  committer : Str
  committerTime : ℤ
  logmsg : Str
  deriving DecidableEq

mutual

/-- **A commit**, which is also its id. -/
inductive Commit
  | mk (treeId : Object) (parentIds : Commits) (info : CommitInfo)

/-- The parents of a commit. -/
inductive Commits
  | nil
  | cons (first : Commit) (rest : Commits)

end

deriving instance DecidableEq for Commit, Commits

/-- The id of a commit, or the null id. -/
abbrev CommitId := Option Commit

/-- The parents of a commit as a list. -/
def Commits.toList : Commits → List Commit
  | .nil => []
  | .cons first rest => first :: rest.toList

/-- The tree of a commit. -/
def Commit.treeId : Commit → Object
  | .mk treeId _ _ => treeId

/-- The parents of a commit, the first one first. -/
def Commit.parentIds : Commit → List Commit
  | .mk _ parentIds _ => parentIds.toList

/-- The loop of `got_object_id_by_path` over the segments of a path. -/
def idBySegments (es : List TreeEntry) : List Name → Except GotErr Object
  | [] => .error .noTreeEntry
  | seg :: segs =>
    match findEntryByName es seg.val with
    | none => .error .noTreeEntry
    | some te =>
      if segs = [] then .ok te.id
      else do
        let next ← gotObjectOpenAsTree te.id
        idBySegments next segs

/-- **The id of what is at a path** in the tree of a commit. -/
def gotObjectIdByPath (commitId : Commit) (path : List Name) : Except GotErr Object :=
  if path = [] then .ok commitId.treeId
  else do
    let tree ← gotObjectOpenAsTree commitId.treeId
    idBySegments tree path

/-! ## What is found at a path -/

/-- What is at a path in a tree is found there. -/
theorem idBySegments_of_entryAt {es : List TreeEntry} {path : List Name} {te : TreeEntry}
    (h : entryAt es path = some te) : idBySegments es path = .ok te.id := by
  induction path generalizing es with
  | nil => exact nomatch h
  | cons n path ih =>
    rw [idBySegments]
    cases path with
    | nil =>
      rw [show findEntryByName es n.val = some te from h]
      exact if_pos rfl
    | cons m path =>
      rw [entryAt_cons] at h
      obtain ⟨te', hte', h⟩ := Option.bind_eq_some_iff.mp h
      obtain ⟨es', hes', h⟩ := Option.bind_eq_some_iff.mp h
      rw [hte']
      dsimp only
      rw [if_neg (List.cons_ne_nil m path)]
      unfold TreeEntry.subtree at hes'
      split at hes'
      · cases hopen : gotObjectOpenAsTree te'.id with
        | error e =>
          rw [hopen] at hes'
          exact nomatch hes'
        | ok es₁ =>
          rw [hopen] at hes'
          obtain rfl := Option.some.inj hes'
          rw [ok_bind, ih h]
      · exact nomatch hes'

end Got

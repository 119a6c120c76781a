import Got.Worktree.WriteTree

/-!
# What the steps of writing a tree do

The statuses of a file say what is to change (`Commitable.isAdd_iff`), and its
mode what kind of entry it becomes (`kindOf_getCtFileMode`). On paths made of
names, each function that `write_tree` calls does what it is called for: a file
is found for an entry if it changes it (`matchDeletedOrModifiedCt_eq_ok`), an
entry is made of a file (`allocAddedBlobTreeEntry_eq_ok`), and a subtree counts
as modified if a file is below it (`matchModifiedSubtree_iff`).

A file fits into a base tree (`Fits`) if it is added at a path that does not
lead through another file, or if it changes the very blob that is there.
-/

namespace Got

/-! ## Modes and statuses -/

namespace Commitable

variable (ct : Commitable)

theorem isAdd_iff : ct.isAdd ↔ ct.change = .add := by
  have h := ct.commitStatus
  unfold isAdd change
  unfold CommitStatus at h
  cases hs : ct.stagedStatus <;> rw [hs] at h <;> cases ht : ct.status <;> rw [ht] at h <;>
    simp_all

theorem isDeletedOrModified_iff : ct.isDeletedOrModified ↔ ct.change ≠ .add := by
  have h := ct.commitStatus
  unfold isDeletedOrModified change
  unfold CommitStatus at h
  cases hs : ct.stagedStatus <;> rw [hs] at h <;> cases ht : ct.status <;> rw [ht] at h <;>
    simp_all

theorem isModified_iff (hd : ct.isDeletedOrModified) : ct.isModified ↔ ct.change = .modify := by
  have h := ct.commitStatus
  unfold isDeletedOrModified at hd
  unfold isModified change
  unfold CommitStatus at h
  cases hs : ct.stagedStatus <;> rw [hs] at h hd <;> cases ht : ct.status <;> rw [ht] at h hd <;>
    simp_all

/-- The blob of an added file. -/
theorem newBlob_of_add (h : ct.isAdd) :
    ct.newBlob = if ct.stagedStatus = .add then ct.stagedBlobId else ct.blobId := by
  have hc := ct.commitStatus
  unfold newBlob
  by_cases hs : ct.stagedStatus = .add
  · rw [if_pos (Or.inl hs), if_pos hs]
  · have hs' : ct.stagedStatus ≠ .modify := by
      intro hm
      rw [hm] at hc
      exact ((of_decide_eq_true h).resolve_right hs |> hc)
    rw [if_neg (not_or.mpr ⟨hs, hs'⟩), if_neg hs]

/-- The blob of a modified file. -/
theorem newBlob_of_modify (h : ct.change ≠ .add) :
    ct.newBlob = if ct.stagedStatus = .modify then ct.stagedBlobId else ct.blobId := by
  have hs : ct.stagedStatus ≠ .add := fun ha =>
    (mt ct.isAdd_iff.mp h) (decide_eq_true (Or.inr ha))
  unfold newBlob
  by_cases hm : ct.stagedStatus = .modify
  · rw [if_pos (Or.inr hm), if_pos hm]
  · rw [if_neg (not_or.mpr ⟨hs, hm⟩), if_neg hm]

end Commitable

theorem and_or_distrib_right (a b c : UInt32) : (a ||| b) &&& c = a &&& c ||| b &&& c :=
  UInt32.toBitVec_inj.mp BitVec.and_or_distrib_right

theorem regular_mode (mode : UInt32) :
    (S_IFREG ||| (mode &&& S_IRWX)) &&& S_IFMT = S_IFREG := by
  rw [and_or_distrib_right, UInt32.and_assoc]
  show S_IFREG &&& S_IFMT ||| mode &&& 0 = S_IFREG
  rw [UInt32.and_zero, UInt32.or_zero]
  rfl

theorem executable_mode (mode : UInt32) :
    (S_IFREG ||| (mode &&& S_IRWX)) &&& (S_IXUSR ||| S_IXGRP ||| S_IXOTH)
      = mode &&& (S_IXUSR ||| S_IXGRP ||| S_IXOTH) := by
  rw [and_or_distrib_right, UInt32.and_assoc]
  show 0 ||| mode &&& (S_IXUSR ||| S_IXGRP ||| S_IXOTH) = _
  rw [UInt32.zero_or]

/-- **The mode of a committed file** is that of its kind. -/
theorem kindOf_getCtFileMode (ct : Commitable) :
    kindOf (getCtFileMode ct) = some ct.kind ∧ S_ISDIR (getCtFileMode ct) = false := by
  unfold getCtFileMode Commitable.kind
  split
  · exact ⟨rfl, rfl⟩
  · unfold kindOf S_ISDIR S_ISREG
    rw [regular_mode, if_pos (by decide), executable_mode]
    exact ⟨rfl, rfl⟩

/-! ## Single steps -/

theorem deref_eq_ok_iff {α : Type} {a? : Option α} {a : α} : deref a? = .ok a ↔ a? = some a := by
  cases a? with
  | none => exact ⟨fun h => (nomatch h), fun h => (nomatch h)⟩
  | some a' => exact ⟨fun h => congrArg some (Except.ok.inj h), fun h => by cases h; rfl⟩

theorem copyName_eq_ok {s : Str} {n : Name} (h : copyName s = .ok n) : n.val = s := by
  unfold copyName at h
  split at h
  · exact nomatch h
  split at h
  · rw [← Except.ok.inj h]
  · exact nomatch h

/-- A commitable is in a directory when its path is the directory's with one more name. -/
theorem matchCtParentPath_eq_ok {ct : Commitable} {b : List Name} {r : Bool}
    (h : matchCtParentPath ct (absPath b) = .ok r) : r ↔ ∃ n, ct.names = b ++ [n] := by
  obtain ⟨parent, n, hn⟩ : ∃ parent n, ct.names = parent ++ [n] := by
    rcases List.eq_nil_or_concat ct.names with hnil | ⟨parent, n, hn⟩
    · exact absurd hnil ct.names_ne
    · exact ⟨parent, n, hn.trans List.concat_eq_append⟩
  have hslash : '/' ∈ ct.inRepoPath := by
    obtain ⟨m, rest, hm⟩ := List.exists_cons_of_ne_nil ct.names_ne
    rw [ct.inRepoPath_eq, absPath_of_ne_nil ct.names_ne, hm, slashed_cons]
    exact List.mem_cons_self
  unfold matchCtParentPath at h
  rw [if_neg (not_not.mpr hslash), ct.inRepoPath_eq, hn, gotPathDirname_absPath] at h
  split at h
  · exact nomatch h
  · rw [ok_bind] at h
    obtain rfl := Except.ok.inj h
    rw [decide_eq_true_iff, absPath_injective, hn]
    constructor
    · rintro rfl
      exact ⟨n, rfl⟩
    · rintro ⟨m, hm⟩
      exact (List.append_inj' hm rfl).1.symm

theorem basename_path {ct : Commitable} {b : List Name} {n : Name} (h : ct.names = b ++ [n]) :
    basename ct.path = n.val := by
  obtain ⟨dirs, hd⟩ := Commitable.relpath_of_names h
  rw [ct.path_eq, hd, basename_absPath]

theorem gotPathBasename_eq_ok {path r : Str} (h : gotPathBasename path = .ok r) :
    r = basename path := by
  unfold gotPathBasename at h
  split at h
  · exact nomatch h
  · exact (Except.ok.inj h).symm

/-- **A file changes an entry** of a directory. -/
def Changes (b : List Name) (te : TreeEntry) (ct : Commitable) : Prop :=
  ct.change ≠ .add ∧ ct.names = b ++ [te.name] ∧ ct.baseBlobId = some te.id

/-- What is found for an entry is a commitable that changes it. -/
theorem matchDeletedOrModifiedCt_eq_ok {te : TreeEntry} {b : List Name} {cts : List Commitable}
    {r : Option Commitable} (h : matchDeletedOrModifiedCt te (absPath b) cts = .ok r) :
    (∀ ct, r = some ct → ct ∈ cts ∧ Changes b te ct)
      ∧ (r = none → ∀ ct ∈ cts, ¬Changes b te ct) := by
  induction cts with
  | nil =>
    obtain rfl := Except.ok.inj h
    exact ⟨fun ct h => (nomatch h), fun _ ct hct => absurd hct List.not_mem_nil⟩
  | cons ct cts ih =>
    have hskip : ¬Changes b te ct → matchDeletedOrModifiedCt te (absPath b) cts = .ok r →
        (∀ ct', r = some ct' → ct' ∈ ct :: cts ∧ Changes b te ct')
          ∧ (r = none → ∀ ct' ∈ ct :: cts, ¬Changes b te ct') := by
      intro hct hr
      obtain ⟨hsome, hnone⟩ := ih hr
      refine ⟨fun ct' hr' => ?_, fun hr' ct' hct' => ?_⟩
      · obtain ⟨hmem, hc⟩ := hsome ct' hr'
        exact ⟨List.mem_cons_of_mem _ hmem, hc⟩
      · rcases List.mem_cons.mp hct' with rfl | hct'
        · exact hct
        · exact hnone hr' ct' hct'
    rw [matchDeletedOrModifiedCt] at h
    split at h
    · next hd => exact hskip (fun hc => hd (ct.isDeletedOrModified_iff.mpr hc.1)) h
    next hd =>
    obtain ⟨id, hid, h⟩ := bind_eq_ok_iff.mp h
    rw [deref_eq_ok_iff] at hid
    split at h
    · next hne =>
      refine hskip (fun hc => hne ?_) h
      exact Option.some.inj (hid.symm.trans hc.2.2)
    next heq =>
    obtain ⟨pathMatches, hp, h⟩ := bind_eq_ok_iff.mp h
    have hp := matchCtParentPath_eq_ok hp
    split at h
    · next hne => exact hskip (fun hc => hne (hp.mpr ⟨_, hc.2.1⟩)) h
    next hpath =>
    obtain ⟨ctName, hn, h⟩ := bind_eq_ok_iff.mp h
    obtain ⟨n, hnames⟩ := hp.mp (not_not.mp hpath)
    rw [gotPathBasename_eq_ok hn, basename_path hnames] at h
    split at h
    · next hne =>
      refine hskip (fun hc => hne ?_) h
      rw [(List.cons.inj (List.append_inj' (hc.2.1.symm.trans hnames) rfl).2).1]
    · next hname =>
      obtain rfl := Except.ok.inj h
      refine ⟨fun ct' hct' => ?_, fun hr => (nomatch hr)⟩
      obtain rfl := Option.some.inj hct'
      refine ⟨List.mem_cons_self, ct.isDeletedOrModified_iff.mp (not_not.mp hd), ?_, ?_⟩
      · rw [hnames, Subtype.ext (not_not.mp hname)]
      · rw [hid, not_not.mp heq]

/-- **The entry of an added file.** -/
theorem allocAddedBlobTreeEntry_eq_ok {ct : Commitable} {b : List Name} {n : Name}
    {te : TreeEntry} (hn : ct.names = b ++ [n]) (ha : ct.isAdd)
    (h : allocAddedBlobTreeEntry ct = .ok te) :
    te.name = n ∧ te.mode = getCtFileMode ct ∧ ct.newBlob = some te.id := by
  obtain ⟨ctName, hb, h⟩ := bind_eq_ok_iff.mp h
  obtain ⟨name, hname, h⟩ := bind_eq_ok_iff.mp h
  obtain ⟨id, hid, h⟩ := bind_eq_ok_iff.mp h
  obtain rfl := Except.ok.inj h
  have hval := copyName_eq_ok hname
  rw [gotPathBasename_eq_ok hb, basename_path hn] at hval
  exact ⟨Subtype.ext hval, rfl, (ct.newBlob_of_add ha).trans (deref_eq_ok_iff.mp hid)⟩

/-- The entry of a modified file. -/
theorem allocModifiedBlobTreeEntry_eq_ok {ct : Commitable} {te te' : TreeEntry}
    (hc : ct.change ≠ .add) (h : allocModifiedBlobTreeEntry te ct = .ok te') :
    te'.name = te.name ∧ te'.mode = getCtFileMode ct ∧ ct.newBlob = some te'.id := by
  obtain ⟨id, hid, h⟩ := bind_eq_ok_iff.mp h
  obtain rfl := Except.ok.inj h
  exact ⟨rfl, rfl, (ct.newBlob_of_modify hc).trans (deref_eq_ok_iff.mp hid)⟩

/-- An entry that is inserted is in the tree, in its place. -/
theorem insertTreeEntry_eq_ok {te : TreeEntry} {paths paths' : List TreeEntry}
    (hs : NameOrder paths) (h : insertTreeEntry te paths = .ok paths') :
    NameOrder paths' ∧ ∀ te', te' ∈ paths' ↔ te' = te ∨ te' ∈ paths := by
  unfold insertTreeEntry at h
  split at h
  · exact nomatch h
  · next hins =>
    obtain rfl := Except.ok.inj h
    obtain ⟨hs', hperm⟩ := gotPathlistInsert_name hs hins
    exact ⟨hs', fun te' => hperm.mem_iff.trans List.mem_cons⟩

/-- Whether a file is below an entry. -/
theorem matchModifiedSubtree_iff {te : TreeEntry} {b : List Name} {cts : List Commitable} :
    matchModifiedSubtree te (absPath b) cts
      ↔ ∃ ct ∈ cts, ∃ m rest, ct.names = b ++ te.name :: m :: rest := by
  unfold matchModifiedSubtree
  rw [List.any_eq_true, joinPath_absPath]
  refine exists_congr (fun ct => and_congr_right' ?_)
  rw [ct.inRepoPath_eq, gotPathIsChild_absPath ct.names_ne]
  simp

/-! ## What fits -/

/-- The files of a base tree, if there is one. -/
def filesOf (baseTree : Option (List TreeEntry)) (path : List Name) : Option File :=
  baseTree.bind (fileAt · path)

/-- The entries of a base tree. -/
def entryOf (baseTree : Option (List TreeEntry)) (path : List Name) : Option TreeEntry :=
  baseTree.bind (entryAt · path)

/-- **A file fits** at a path: it is added and there is no file on the way, or
it changes the blob that is there. -/
def Fits (baseTree : Option (List TreeEntry)) (path : List Name) (ct : Commitable) : Prop :=
  if ct.change = .add then ∀ dirs n rest, path = dirs ++ n :: rest → filesOf baseTree dirs = none
  else ∃ kind id, filesOf baseTree path = some (kind, id) ∧ kind ≠ some .submodule
    ∧ ct.baseBlobId = some id

section Fits

variable {bt : Option (List TreeEntry)} {ct : Commitable} {n m : Name} {path : List Name}

theorem filesOf_nil : filesOf bt [] = none := by
  cases bt <;> rfl

theorem filesOf_singleton :
    filesOf bt [n] = (entryOf bt [n]).bind TreeEntry.file? := by
  cases bt <;> rfl

/-- The file at a path of several names is in the subtree of the first. -/
theorem filesOf_cons :
    filesOf bt (n :: m :: path)
      = (entryOf bt [n]).bind (fun te => filesOf te.subtree (m :: path)) := by
  cases bt with
  | none => rfl
  | some es => exact fileAt_cons es n m path

/-- The entry at a path of several names is in the subtree of the first. -/
theorem entryOf_cons :
    entryOf bt (n :: m :: path)
      = (entryOf bt [n]).bind (fun te => entryOf te.subtree (m :: path)) := by
  cases bt with
  | none => rfl
  | some es => exact entryAt_cons es n m path

theorem file?_eq_none_iff {te : TreeEntry} : te.file? = none ↔ S_ISDIR te.mode := by
  unfold TreeEntry.file?
  split
  · next h => exact ⟨fun _ => h, fun _ => rfl⟩
  · next h => exact ⟨fun h' => (nomatch h'), fun h' => absurd h' h⟩

theorem subtree_of_not_dir {te : TreeEntry} (h : ¬S_ISDIR te.mode) : te.subtree = none := if_neg h

/-- A submodule is what has the bits of a directory and of a symlink. -/
theorem kindOf_eq_submodule_iff {mode : UInt32} :
    kindOf mode = some .submodule ↔ mode &&& S_IFMT = S_IFDIR ||| S_IFLNK := by
  unfold kindOf
  split
  · next h =>
    unfold S_ISREG at h
    rw [of_decide_eq_true h]
    constructor
    · intro h'
      split at h' <;> exact nomatch h'
    · exact fun h' => absurd h' (by decide)
  split
  · next h => exact ⟨fun _ => h, fun _ => rfl⟩
  · next h =>
    refine ⟨fun h' => ?_, fun h' => absurd h' h⟩
    split at h'
    · exact nomatch h'
    split at h' <;> exact nomatch h'

theorem isSubmodule_iff {te : TreeEntry} : te.isSubmodule ↔ kindOf te.mode = some .submodule := by
  rw [kindOf_eq_submodule_iff, TreeEntry.isSubmodule, decide_eq_true_iff]

theorem not_dir_of_isSubmodule {te : TreeEntry} (h : te.isSubmodule) : ¬S_ISDIR te.mode := by
  unfold TreeEntry.isSubmodule at h
  unfold S_ISDIR
  rw [of_decide_eq_true h]
  decide

/-- Without directories on the way an added file always fits. -/
theorem fits_singleton_of_add (h : ct.change = .add) : Fits bt [n] ct := by
  unfold Fits
  rw [if_pos h]
  intro dirs m rest hp
  cases dirs with
  | nil => exact filesOf_nil
  | cons d dirs => exact absurd (List.cons.inj hp).2 (by simp)

/-- A file that changes something fits if the entry is the one it was made
from. -/
theorem fits_singleton_iff (h : ct.change ≠ .add) :
    Fits bt [n] ct ↔ ∃ te, entryOf bt [n] = some te ∧ ¬S_ISDIR te.mode ∧ ¬te.isSubmodule
      ∧ ct.baseBlobId = some te.id := by
  unfold Fits
  rw [if_neg h, filesOf_singleton]
  constructor
  · rintro ⟨kind, id, hf, hk, hb⟩
    obtain ⟨te, hte, hfile⟩ := Option.bind_eq_some_iff.mp hf
    unfold TreeEntry.file? at hfile
    split at hfile
    · exact nomatch hfile
    · next hdir =>
      obtain ⟨rfl, rfl⟩ := Prod.mk.inj (Option.some.inj hfile)
      exact ⟨te, hte, hdir, fun hs => hk (isSubmodule_iff.mp hs), hb⟩
  · rintro ⟨te, hte, hdir, hs, hb⟩
    refine ⟨kindOf te.mode, te.id, ?_, fun hk => hs (isSubmodule_iff.mpr hk), hb⟩
    rw [hte, Option.bind_some, TreeEntry.file?, if_neg hdir]

/-- **Below a name**, a file fits if the entry there is a directory into which
the rest fits; or there is no entry, and it is added. -/
theorem fits_cons_iff : Fits bt (n :: m :: path) ct ↔
    match entryOf bt [n] with
    | none => ct.change = .add
    | some te => S_ISDIR te.mode ∧ Fits te.subtree (m :: path) ct := by
  unfold Fits
  by_cases h : ct.change = .add
  · rw [if_pos h]
    cases hte : entryOf bt [n] with
    | none =>
      refine ⟨fun _ => h, fun _ dirs n' rest hp => ?_⟩
      rcases dirs with _ | ⟨d, _ | ⟨d', dirs⟩⟩
      · exact filesOf_nil
      · obtain ⟨rfl, -⟩ := List.cons.inj hp
        rw [filesOf_singleton, hte, Option.bind_none]
      · obtain ⟨rfl, -⟩ := List.cons.inj hp
        rw [filesOf_cons, hte, Option.bind_none]
    | some te =>
      dsimp only
      rw [if_pos h]
      constructor
      · intro hall
        refine ⟨?_, fun dirs n' rest hp => ?_⟩
        · have := hall [n] m path rfl
          rw [filesOf_singleton, hte, Option.bind_some] at this
          exact file?_eq_none_iff.mp this
        · cases dirs with
          | nil => exact filesOf_nil
          | cons d dirs =>
            have := hall (n :: d :: dirs) n' rest (by rw [hp]; rfl)
            rwa [filesOf_cons, hte, Option.bind_some] at this
      · rintro ⟨hdir, hall⟩ dirs n' rest hp
        rcases dirs with _ | ⟨d, _ | ⟨d', dirs⟩⟩
        · exact filesOf_nil
        · obtain ⟨rfl, -⟩ := List.cons.inj hp
          rw [filesOf_singleton, hte, Option.bind_some]
          exact file?_eq_none_iff.mpr hdir
        · obtain ⟨rfl, htail⟩ := List.cons.inj hp
          rw [filesOf_cons, hte, Option.bind_some]
          exact hall (d' :: dirs) n' rest htail
  · rw [if_neg h, filesOf_cons]
    cases hte : entryOf bt [n] with
    | none => exact ⟨fun ⟨_, _, hf, _⟩ => (nomatch hf), fun ha => absurd ha h⟩
    | some te =>
      dsimp only
      rw [if_neg h, Option.bind_some]
      refine ⟨fun hf => ⟨?_, hf⟩, fun hf => hf.2⟩
      by_contra hdir
      obtain ⟨kind, id, hfile, -⟩ := hf
      rw [subtree_of_not_dir hdir] at hfile
      exact nomatch hfile

end Fits

end Got

import Got.Object
import Got.ObjectFile.Text
import Got.ObjectFile.TreeGrammar

/-!
# The content of a tree object

A tree is written as a header, which has the length of the content, and the entries
one after the other: the mode in octal digits, the name, and the digest. Trees are
written in the order of Git, in which a directory comes where its name would come with
a slash behind it, and read back in the order of paths.

The result is that nothing is lost (`gotObjectParseTree_create`), but for what the
modes have to say besides the kind of an entry.
-/

namespace Got

open Numeral

namespace ObjectFile

/-- **`struct got_tree_entry`**, where there is so much room for the name. -/
structure TreeEntry where
  mode : UInt32
  name : Name
  id : Sha1
  bytes : ∀ c ∈ name.val, 0 < c.toNat ∧ c.toNat < 256
  length : name.val.length ≤ NAME_MAX

/-- An entry as it is known elsewhere. -/
def TreeEntry.entry (te : TreeEntry) : Got.TreeEntry := ⟨te.mode, te.name, .foreign te.id⟩

/-! ## Writing -/

/-- **`te_mode2str`**, with a buffer for `"100644 "`. -/
def teMode2str (te : TreeEntry) : Except GotErr Bytes := do
  let mode ← Got.teMode2str te.entry
  let modebuf := numeral 8 mode.toNat ++ [0x20]
  if modebuf.length ≥ 8 then .error .noSpace else return modebuf

/-- The first loop over the entries, which adds up the length. -/
def treeLength : List TreeEntry → ℕ → Except GotErr ℕ
  | [], len => .ok len
  | te :: sorted, len => do
    let modebuf ← teMode2str te
    treeLength sorted (len + (modebuf.length + te.name.val.length + 1 + SHA1_DIGEST_LENGTH))

/-- The second loop over the entries. -/
def writeTreeEntries : List TreeEntry → Except GotErr Bytes
  | [] => .ok []
  | te :: sorted => do
    let modebuf ← teMode2str te
    let rest ← writeTreeEntries sorted
    return modebuf ++ (pathBytes te.name.val ++ 0 :: (te.id.val ++ rest))

/-- The entries in the order in which they are written. -/
def sortedEntries (paths : List TreeEntry) : List TreeEntry :=
  paths.insertionSort (fun te1 te2 => sortTreeEntriesTheWayGitLikesIt te1.entry te2.entry ≠ .gt)

/-- **`got_object_tree_create`**: the file that is stored. -/
def gotObjectTreeCreate (paths : List TreeEntry) : Except GotErr Bytes := do
  let sorted := sortedEntries paths
  let len ← treeLength sorted 0
  let entries ← writeTreeEntries sorted
  return objectHeader (text "tree") len ++ entries

/-! ## Modes -/

/-- **The mode that is written**: all that is left of a mode is the kind of the entry. -/
def TreeEntry.normalMode (te : TreeEntry) : UInt32 :=
  match kindOf te.mode with
  | some kind => kind.mode
  | none => te.mode

/-- The mode that is written for a kind is the kind's own. -/
theorem teMode2str_of_kindOf {te : Got.TreeEntry} {kind : EntryKind}
    (h : kindOf te.mode = some kind) : Got.teMode2str te = .ok kind.mode := by
  unfold kindOf at h
  unfold Got.teMode2str TreeEntry.isSubmodule
  split at h
  · next hreg =>
    rw [if_pos hreg]
    split at h
    · next hx =>
      obtain rfl := Option.some.inj h
      exact if_pos hx
    · next hx =>
      obtain rfl := Option.some.inj h
      exact if_neg hx
  · next hreg =>
    rw [if_neg hreg]
    split at h
    · next hsub =>
      obtain rfl := Option.some.inj h
      exact if_pos (decide_eq_true hsub)
    · next hsub =>
      rw [if_neg fun hd => hsub (of_decide_eq_true hd)]
      split at h
      · next hlnk =>
        obtain rfl := Option.some.inj h
        exact if_pos hlnk
      · next hlnk =>
        rw [if_neg hlnk]
        split at h
        · next hdir =>
          obtain rfl := Option.some.inj h
          exact if_pos hdir
        · exact nomatch h

/-- The digits of a mode that is written, and how they are read. -/
theorem numeral_mode (kind : EntryKind) :
    (numeral 8 kind.mode.toNat).length < 7 ∧ numeral 8 kind.mode.toNat ≠ []
      ∧ (∀ c ∈ numeral 8 kind.mode.toNat, c ≠ 0 ∧ c ≠ 0x20)
      ∧ parseMode (numeral 8 kind.mode.toNat) 0 = .ok kind.mode := by
  cases kind <;> exact ⟨by decide, by decide, by decide +kernel, rfl⟩

namespace TreeEntry

variable {te : TreeEntry}

/-- **What is written for an entry.** -/
def written (te : TreeEntry) : Bytes :=
  numeral 8 te.normalMode.toNat ++ 0x20 :: (pathBytes te.name.val ++ 0 :: te.id.val)

/-- **What is read for an entry.** -/
def parsed (te : TreeEntry) : ParsedTreeEntry := ⟨te.normalMode, te.name.val, te.id⟩

/-- The name by which Git orders entries. -/
def gitName (te : TreeEntry) : Str := te.name.val ++ if S_ISDIR te.mode then ['/'] else []

/-- The mode of an entry that can be written. -/
theorem exists_kind (h : (kindOf te.mode).isSome) :
    ∃ kind, kindOf te.mode = some kind ∧ te.normalMode = kind.mode := by
  obtain ⟨kind, hkind⟩ := Option.isSome_iff_exists.mp h
  refine ⟨kind, hkind, ?_⟩
  rw [normalMode, hkind]

/-- An entry's mode is written as an octal number and a space. -/
theorem teMode2str_eq (h : (kindOf te.mode).isSome) :
    teMode2str te = .ok (numeral 8 te.normalMode.toNat ++ [0x20]) := by
  obtain ⟨kind, hkind, hmode⟩ := exists_kind h
  obtain ⟨hlen, -⟩ := numeral_mode kind
  rw [teMode2str, @teMode2str_of_kindOf te.entry _ hkind, ok_bind, hmode]
  dsimp only
  rw [if_neg]
  · rfl
  · rw [List.length_append, List.length_singleton]
    omega

/-- Names in the order of Git are distinct. -/
theorem name_eq_of_gitName {te' : TreeEntry} (h : te.gitName = te'.gitName) :
    te.name = te'.name := by
  have hshape : ∀ te : TreeEntry, (if S_ISDIR te.mode then ['/'] else []) = []
      ∨ ∃ r, (if S_ISDIR te.mode then ['/'] else []) = '/' :: r := by
    intro te
    split
    · exact Or.inr ⟨[], rfl⟩
    · exact Or.inl rfl
  exact Subtype.ext (append_slash_inj te.name.2.2 te'.name.2.2 (hshape te) (hshape te') h).1

end TreeEntry

/-! ## What is written -/

variable {entries : List TreeEntry}

/-- The length that is computed for a tree is the length of what is written. -/
theorem treeLength_eq (h : ∀ te ∈ entries, (kindOf te.mode).isSome) (len : ℕ) :
    treeLength entries len = .ok (len + (entries.flatMap TreeEntry.written).length) := by
  induction entries generalizing len with
  | nil => rfl
  | cons te entries ih =>
    rw [treeLength, TreeEntry.teMode2str_eq (h te List.mem_cons_self), ok_bind,
      ih fun te' hte' => h te' (List.mem_cons_of_mem _ hte')]
    have hid : te.id.val.length = SHA1_DIGEST_LENGTH := te.id.2
    simp only [TreeEntry.written, List.flatMap_cons, List.length_append, List.length_cons,
      List.length_nil, pathBytes, List.length_map, hid]
    congr 1
    omega

/-- What is written for a tree is what is written for its entries in turn. -/
theorem writeTreeEntries_eq (h : ∀ te ∈ entries, (kindOf te.mode).isSome) :
    writeTreeEntries entries = .ok (entries.flatMap TreeEntry.written) := by
  induction entries with
  | nil => rfl
  | cons te entries ih =>
    rw [writeTreeEntries, TreeEntry.teMode2str_eq (h te List.mem_cons_self), ok_bind,
      ih fun te' hte' => h te' (List.mem_cons_of_mem _ hte'), ok_bind, List.flatMap_cons]
    simp only [TreeEntry.written, List.append_assoc, List.cons_append, List.nil_append]
    rfl

/-- The entries are sorted by the order of Git. -/
theorem sortedEntries_spec {paths : List TreeEntry} (hd : (paths.map TreeEntry.name).Nodup) :
    (sortedEntries paths).Perm paths
      ∧ (sortedEntries paths).Pairwise (fun te te' => te.gitName < te'.gitName) := by
  have hperm := List.perm_insertionSort
    (fun te1 te2 : TreeEntry => sortTreeEntriesTheWayGitLikesIt te1.entry te2.entry ≠ .gt) paths
  refine ⟨hperm, ?_⟩
  have hle : ∀ te te' : TreeEntry, sortTreeEntriesTheWayGitLikesIt te.entry te'.entry ≠ .gt
      ↔ te.gitName ≤ te'.gitName := by
    intro te te'
    rw [sortTreeEntriesTheWayGitLikesIt, strcmp_eq_linCmp, Ne, linCmp_eq_gt_iff, not_lt]
    rfl
  have htotal : Std.Total (fun te1 te2 : TreeEntry =>
      sortTreeEntriesTheWayGitLikesIt te1.entry te2.entry ≠ .gt) :=
    ⟨fun te te' => by rw [hle, hle]; exact le_total _ _⟩
  have htrans : IsTrans TreeEntry (fun te1 te2 =>
      sortTreeEntriesTheWayGitLikesIt te1.entry te2.entry ≠ .gt) :=
    ⟨fun te te' te'' => by rw [hle, hle, hle]; exact le_trans⟩
  have hsorted := List.pairwise_insertionSort
    (fun te1 te2 : TreeEntry => sortTreeEntriesTheWayGitLikesIt te1.entry te2.entry ≠ .gt) paths
  have hnodup : (sortedEntries paths).Pairwise (fun te te' => te.name ≠ te'.name) :=
    List.pairwise_map.mp ((hperm.map TreeEntry.name).nodup_iff.mpr hd)
  refine (List.Pairwise.and hsorted hnodup).imp fun ⟨hcmp, hne⟩ => ?_
  exact lt_of_le_of_ne ((hle _ _).mp hcmp) fun heq => hne (TreeEntry.name_eq_of_gitName heq)

/-! ## What is read -/

namespace TreeEntry

/-- An entry that is written can be read. -/
theorem exists_rawEntry {te : TreeEntry} (h : (kindOf te.mode).isSome) :
    ∃ e : RawEntry, e.bytes = te.written ∧ e.parsed = te.parsed := by
  obtain ⟨kind, -, hmode⟩ := exists_kind h
  obtain ⟨-, hne, hdigits, hparse⟩ := numeral_mode kind
  rw [← hmode] at hne hdigits hparse
  rw [parseMode_eq] at hparse
  refine ⟨⟨numeral 8 te.normalMode.toNat, ⟨pathBytes te.name.val, zero_not_mem_pathBytes te.bytes⟩,
    te.id, hne, fun h0 => (hdigits 0 h0).1 rfl, fun hspace => (hdigits 0x20 hspace).2 rfl⟩, rfl, ?_⟩
  have hname : cString (pathBytes te.name.val ++ 0 :: []) = te.name.val :=
    cString_append te.bytes []
  rw [cString, takeWhile_append_zero (zero_not_mem_pathBytes te.bytes)] at hname
  unfold RawEntry.parsed RawEntry.path nameOf
  rw [Except.ok.inj hparse, hname]
  rfl

/-- Written entries are raw entries with the same contents. -/
theorem exists_rawEntries {tes : List TreeEntry} (h : ∀ te ∈ tes, (kindOf te.mode).isSome) :
    ∃ es : List RawEntry, es.flatMap RawEntry.bytes = tes.flatMap written
      ∧ es.map RawEntry.parsed = tes.map parsed := by
  induction tes with
  | nil => exact ⟨[], rfl, rfl⟩
  | cons te tes ih =>
    obtain ⟨e, hbytes, hparsed⟩ := exists_rawEntry (h te List.mem_cons_self)
    obtain ⟨es, hflat, hmap⟩ := ih fun te' hte' => h te' (List.mem_cons_of_mem _ hte')
    refine ⟨e :: es, ?_, ?_⟩
    · rw [List.flatMap_cons, List.flatMap_cons, hbytes, hflat]
    · rw [List.map_cons, List.map_cons, hparsed, hmap]

end TreeEntry

/-! ## The round trip -/

/-- **What is written for a tree is read again**: the same names and digests, and the modes
that were written. It is written in the order of Git, and its header has its length. -/
theorem gotObjectParseTree_create {paths : List TreeEntry}
    (hmodes : ∀ te ∈ paths, (kindOf te.mode).isSome)
    (horder : paths.Pairwise (fun te te' => gotPathCmp te.name.val te'.name.val = .lt)) :
    ∃ (content : Bytes) (sorted : List TreeEntry), gotObjectTreeCreate paths
        = .ok (objectHeader (text "tree") content.length ++ content)
      ∧ gotObjectParseTree content = .ok (paths.map TreeEntry.parsed)
      ∧ content = sorted.flatMap TreeEntry.written ∧ sorted.Perm paths
      ∧ sorted.Pairwise (fun te te' => te.gitName < te'.gitName) := by
  have hs : InOrderOf TreeEntry.name paths := horder.imp fun h => by
    rw [gotPathCmp_name] at h
    exact linCmp_eq_lt_iff.mp h
  obtain ⟨hperm, hgit⟩ := sortedEntries_spec hs.nodup
  have hmodes' : ∀ te ∈ sortedEntries paths, (kindOf te.mode).isSome := fun te hte =>
    hmodes te (hperm.mem_iff.mp hte)
  refine ⟨_, sortedEntries paths, ?_, ?_, rfl, hperm, hgit⟩
  · rw [gotObjectTreeCreate]
    rw [treeLength_eq hmodes', ok_bind, writeTreeEntries_eq hmodes', ok_bind, Nat.zero_add]
    rfl
  · obtain ⟨es, hflat, hmap⟩ := TreeEntry.exists_rawEntries hmodes'
    refine gotObjectParseTree_eq_ok_iff.mpr ⟨es, hflat.symm, ?_, ?_⟩
    · rw [hmap]
      exact hperm.symm.map TreeEntry.parsed
    · refine List.pairwise_map.mpr (horder.imp fun {te te'} h => linCmp_eq_lt_iff.mp ?_)
      rw [← gotPathCmp_entryKey]
      exact h

/-- A directory, and a file whose name goes on with a character below a slash. -/
def directoryAndFile : List TreeEntry :=
  [⟨0o040755, ⟨['a'], isName_a⟩, ⟨List.replicate 20 1, rfl⟩, by simp, by decide⟩,
    ⟨0o100664, ⟨['a', '.', 'c'], by decide⟩, ⟨List.replicate 20 2, rfl⟩, by simp, by decide⟩]

/-- The theorem at work on a directory and a file. -/
theorem gotObjectParseTree_create_directoryAndFile :
    ∃ (content : Bytes) (sorted : List TreeEntry), gotObjectTreeCreate directoryAndFile
        = .ok (objectHeader (text "tree") content.length ++ content)
      ∧ gotObjectParseTree content = .ok (directoryAndFile.map TreeEntry.parsed)
      ∧ content = sorted.flatMap TreeEntry.written ∧ sorted.Perm directoryAndFile
      ∧ sorted.Pairwise (fun te te' => te.gitName < te'.gitName) :=
  gotObjectParseTree_create (by decide) (by decide)

end ObjectFile

end Got

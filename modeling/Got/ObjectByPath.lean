import Got.CommitGraph.Repository

/-!
# Objects by their paths

An entry of a tree is found by its name in a scan that stops at the first name which is
greater, where only as many characters count as the name has that is looked for. The
entries are in another order than this: in git's own one a directory is sorted as if
there was a separator behind its name, and in the order of paths a separator comes before
all other characters. Still no entry of the name can follow one where the scan stops
(`NotPast`), as a beginning that is greater makes what begins with it greater, whatever
comes behind. So the scan is the search for the name (`findByName_eq_find?`).

In git's order this needs nothing of the names. In the order of paths it needs that they
have no separators in them, as those of a tree have not.

The id of what is at a path is found by a walk over the characters of the path. On the
path that is made of names, with separators in front or one at its end, it looks up one
name after the other (`gotObjectIdByPath_relPath`); in the rest of this development paths
are such lists of names from the start.
-/

namespace Got

/-! ## Finding an entry -/

section Find

variable {α : Type} (nameOf : α → Str) (isDir : α → Bool)

/-- **The scan for a name**, of which only as many characters are compared as it has. -/
def findByName : List α → Str → Option α
  | [], _ => none
  | te :: es, name =>
    match strcmp ((nameOf te).take name.length) name with
    | .lt => findByName es name
    | .gt => none
    | .eq => if (nameOf te).length = name.length then some te else findByName es name

/-- What git sorts an entry by. -/
def gitKey (te : α) : Str := nameOf te ++ if isDir te then ['/'] else []

/-- **Git's canonical order.** -/
def InGitOrder (es : List α) : Prop :=
  es.Pairwise fun a b => strcmp (gitKey nameOf isDir a) (gitKey nameOf isDir b) ≠ .gt

/-- **The order of paths.** -/
def InPathOrder (es : List α) : Prop :=
  es.Pairwise fun a b => gotPathCmp (nameOf a) (nameOf b) ≠ .gt

/-- **No entry of the name that is looked for** follows one that is past it. -/
def NotPast (es : List α) : Prop :=
  es.Pairwise fun a b => ¬nameOf b < (nameOf a).take (nameOf b).length

variable {nameOf isDir} {es : List α}

theorem strcmp_ne_gt_iff {s t : Str} : strcmp s t ≠ .gt ↔ s ≤ t := by
  rw [strcmp_eq_linCmp, ne_eq, linCmp_eq_gt_iff, not_lt]

/-- What begins with something greater is greater. -/
theorem lt_of_lt_of_prefix {s t u : Str} (hst : s < t) (htu : t <+: u) : s < u := by
  by_cases h : t = u
  · exact h ▸ hst
  · exact lt_trans hst (lt_of_prefix_ne htu h)

/-- **Keys in order**, each of which begins with the name. -/
theorem not_lt_take_of_le {a b s t : Str} (h : a ++ s ≤ b ++ t) : ¬b < a.take b.length := by
  intro hlt
  have hpre : a.take b.length <+: (a ++ s).take b.length := by
    rw [List.take_append]
    exact List.prefix_append _ _
  have hlt : (b ++ t).take b.length < (a ++ s).take b.length := by
    rw [List.take_left]
    exact lt_of_lt_of_prefix hlt hpre
  rcases h.lt_or_eq with h | h
  · exact not_take_lt_take h _ hlt
  · rw [h] at hlt
    exact lt_irrefl _ hlt

theorem InGitOrder.notPast (h : InGitOrder nameOf isDir es) : NotPast nameOf es :=
  h.imp fun hab => not_lt_take_of_le (strcmp_ne_gt_iff.mp hab)

/-- Without separators, paths are compared like strings. -/
theorem gotPathCmp_of_not_mem {s t : Str} (hs : '/' ∉ s) (ht : '/' ∉ t) :
    gotPathCmp s t = strcmp s t := by
  have hdrop : ∀ u : Str, '/' ∉ u → u.dropWhile (· = '/') = u := fun u hu => by
    cases u with
    | nil => rfl
    | cons c u =>
      rw [List.dropWhile_cons_of_neg]
      exact fun hc => hu (of_decide_eq_true hc ▸ List.mem_cons_self)
  rw [gotPathCmp_eq_cmpFrom, hdrop s hs, hdrop t ht, strcmp_eq_linCmp]
  by_cases hst : s = t
  · subst hst
    have hself := cmpFrom_append s [] []
    rw [List.append_nil] at hself
    rw [hself, linCmp_self]
    rfl
  · have hnames := cmpFrom_names hs ht hst [] []
    rwa [slashed, List.flatMap_nil, List.append_nil, List.append_nil] at hnames

/-- In the order of paths, the scan does not stop before the entry. -/
theorem InPathOrder.notPast (hnames : ∀ te ∈ es, '/' ∉ nameOf te) (h : InPathOrder nameOf es) :
    NotPast nameOf es := by
  refine List.Pairwise.imp_of_mem (fun {a b} ha hb hab => ?_) h
  rw [gotPathCmp_of_not_mem (hnames a ha) (hnames b hb), strcmp_ne_gt_iff] at hab
  refine not_lt_take_of_le (s := []) (t := []) ?_
  rwa [List.append_nil, List.append_nil]

/-- **The scan finds the first entry of the name**, and nothing if there is none. -/
theorem findByName_eq_find? (h : NotPast nameOf es) (name : Str) :
    findByName nameOf es name = es.find? (nameOf · = name) := by
  induction es with
  | nil => rfl
  | cons te es ih =>
    obtain ⟨hte, hes⟩ := List.pairwise_cons.mp h
    have ih := ih hes
    rw [findByName, strcmp_eq_linCmp]
    cases hcmp : linCmp ((nameOf te).take name.length) name with
    | lt =>
      have hlt := linCmp_eq_lt_iff.mp hcmp
      rw [List.find?_cons_of_neg, ← ih]
      intro hname
      rw [of_decide_eq_true hname, List.take_length] at hlt
      exact lt_irrefl _ hlt
    | gt =>
      -- whoever has the name cannot be behind this entry, nor be it
      have hgt := linCmp_eq_gt_iff.mp hcmp
      refine (List.find?_eq_none.mpr fun te' hte' hname => ?_).symm
      have hname := of_decide_eq_true hname
      subst hname
      rcases List.mem_cons.mp hte' with rfl | hte'
      · rw [List.take_length] at hgt
        exact lt_irrefl _ hgt
      · exact hte te' hte' hgt
    | eq =>
      have heq := linCmp_eq_eq_iff.mp hcmp
      dsimp only
      by_cases hlen : (nameOf te).length = name.length
      · rw [if_pos hlen, List.find?_cons_of_pos]
        rw [← hlen, List.take_length] at heq
        exact decide_eq_true heq
      · rw [if_neg hlen, List.find?_cons_of_neg, ← ih]
        exact fun hname => hlen (by rw [of_decide_eq_true hname])

end Find

/-- The scan of `object.c`. -/
theorem findEntryByName_eq_findByName (es : List TreeEntry) (name : Str) :
    findEntryByName es name = findByName (fun te => te.name.val) es name := by
  induction es with
  | nil => rfl
  | cons te es ih =>
    cases hcmp : strcmp (te.name.val.take name.length) name <;>
      simp only [findEntryByName, findByName, hcmp, ih]

/-- `find_entry_by_name` of `got-read-pack.c` -/
def ObjectFile.findEntryByName (entries : List ObjectFile.ParsedTreeEntry) (name : Str) :
    Option ObjectFile.ParsedTreeEntry :=
  findByName ObjectFile.ParsedTreeEntry.name entries name

theorem findEntryByName_eq_find? {es : List TreeEntry} (h : NotPast (fun te => te.name.val) es)
    (name : Str) : findEntryByName es name = es.find? (fun te => te.name.val = name) := by
  rw [findEntryByName_eq_findByName, findByName_eq_find? h]

/-- In the order of git, the scan does not stop before the entry. -/
theorem notPast_of_nameOrder {es : List TreeEntry} (h : NameOrder es) :
    NotPast (fun te => te.name.val) es :=
  h.imp fun {a b} hab => by
    refine not_lt_take_of_le (s := []) (t := []) ?_
    rw [List.append_nil, List.append_nil]
    exact le_of_lt hab

/-! ## Walking a path -/

/-- **The loop over the characters of a path**, of which `s` is what is left. The
component that is read at the time is the first `seglen` characters of `seg`. -/
def idByPathLoop (tree : List TreeEntry) (te : Option TreeEntry) (seg : Str) (seglen : ℕ) :
    Str → Except GotErr (Option TreeEntry)
  | [] => .ok te
  | c :: s =>
    if c ≠ '/' ∧ s ≠ [] then idByPathLoop tree te seg (seglen + 1) s
    else if c ≠ '/' then
      match findEntryByName tree (seg.take (seglen + 1)) with
      | none => .error .noTreeEntry
      | some te => .ok (some te)
    else
      match findEntryByName tree (seg.take seglen) with
      | none => .error .noTreeEntry
      | some te =>
        if s ≠ [] then do
          let nextTree ← gotObjectOpenAsTree te.id
          idByPathLoop nextTree none s 0 s
        else idByPathLoop tree (some te) s 0 s

/-- What is returned for the entry at which the path ended. -/
def foundId : Option TreeEntry → Except GotErr Object
  | some te => .ok te.id
  | none => .error .noTreeEntry

/-- **The id of what is at a path**, as the source finds it. -/
def Repository.gotObjectIdByPathStr {ι : Type} (repo : Repository ι) (commitId : ι) (path : Str) :
    Except GotErr Object := do
  let commit ← repo.gotObjectOpenAsCommit commitId
  if gotPathIsRootDir path then return commit.treeId
  else
    let tree ← gotObjectOpenAsTree commit.treeId
    let s := path.dropWhile (· = '/')
    let te ← idByPathLoop tree none s 0 s
    foundId te

/-- **The components of a path, looked up in turn**: each in the tree that the one before
it stands for. -/
def lookUpFrom (id : Object) : List Name → Except GotErr Object
  | [] => .ok id
  | n :: names => do
    let es ← gotObjectOpenAsTree id
    match es.find? (fun te => te.name = n) with
    | none => .error .noTreeEntry
    | some te => lookUpFrom te.id names

/-- The characters of a component are passed over. -/
theorem idByPathLoop_name {tree : List TreeEntry} {te : Option TreeEntry} {seg cs : Str}
    (hcs : '/' ∉ cs) (seglen : ℕ) (c : Char) (s : Str) :
    idByPathLoop tree te seg seglen (cs ++ c :: s)
      = idByPathLoop tree te seg (seglen + cs.length) (c :: s) := by
  induction cs generalizing seglen with
  | nil => rfl
  | cons a cs ih =>
    have ha : a ≠ '/' := fun h => hcs (h ▸ List.mem_cons_self)
    rw [List.cons_append, idByPathLoop,
      if_pos ⟨ha, List.append_ne_nil_of_right_ne_nil cs (List.cons_ne_nil c s)⟩,
      ih (fun h => hcs (List.mem_cons_of_mem _ h)), List.length_cons, Nat.add_assoc,
      Nat.add_comm 1]

/-- **The last component**, where the path ends. -/
theorem idByPathLoop_last (tree : List TreeEntry) (te : Option TreeEntry) (n : Name) :
    idByPathLoop tree te n.val 0 n.val
      = match findEntryByName tree n.val with
        | none => .error .noTreeEntry
        | some te => .ok (some te) := by
  have hne := n.2.1
  have hsplit := List.dropLast_append_getLast hne
  have hmem := List.getLast_mem hne
  have hlast : n.val.getLast hne ≠ '/' := fun h => by
    rw [h] at hmem
    exact n.2.2 hmem
  have hinit : '/' ∉ n.val.dropLast := fun h => n.2.2 (List.mem_of_mem_dropLast h)
  have hlen : 0 + n.val.dropLast.length + 1 = n.val.length := by
    have := List.length_pos_of_ne_nil hne
    rw [List.length_dropLast]
    omega
  have hpass := @idByPathLoop_name tree te n.val n.val.dropLast hinit 0
    (n.val.getLast hne) []
  rw [hsplit] at hpass
  rw [hpass, idByPathLoop, if_neg (fun h => h.2 rfl), if_pos hlast, hlen, List.take_length]

/-- **A component with a separator behind it.** -/
theorem idByPathLoop_slash (tree : List TreeEntry) (te : Option TreeEntry) (n : Name) (s : Str) :
    idByPathLoop tree te (n.val ++ '/' :: s) 0 (n.val ++ '/' :: s)
      = match findEntryByName tree n.val with
        | none => .error .noTreeEntry
        | some te =>
          if s ≠ [] then do
            let nextTree ← gotObjectOpenAsTree te.id
            idByPathLoop nextTree none s 0 s
          else .ok (some te) := by
  rw [idByPathLoop_name n.2.2, idByPathLoop, if_neg (fun h => h.1 rfl), if_neg (fun h => h rfl),
    Nat.zero_add, List.take_left]
  cases findEntryByName tree n.val with
  | none => rfl
  | some te' =>
    dsimp only
    by_cases hs : s = []
    · subst hs
      rfl
    · rw [if_pos hs, if_pos hs]

/-- The scan finds the entry of a name, as it does not stop before it. -/
theorem findEntryByName_name {es : List TreeEntry} (h : NotPast (fun te => te.name.val) es)
    (n : Name) : findEntryByName es n.val = es.find? (fun te => te.name = n) := by
  rw [findEntryByName_eq_find? h]
  congr 1
  funext te
  exact decide_eq_decide.mpr Subtype.ext_iff.symm

/-- **The loop looks up one component after the other**, with or without a separator
behind the last one. -/
theorem idByPathLoop_relPath {tree : List TreeEntry} (h : NotPast (fun te => te.name.val) tree)
    (te : Option TreeEntry) (n : Name) (names : List Name) {trail : Str}
    (htrail : trail = [] ∨ trail = ['/']) :
    (idByPathLoop tree te (relPath (n :: names) ++ trail) 0 (relPath (n :: names) ++ trail)
        >>= foundId)
      = match tree.find? (fun te => te.name = n) with
        | none => .error .noTreeEntry
        | some te => lookUpFrom te.id names := by
  induction names generalizing tree te n with
  | nil =>
    rw [relPath, slashed, List.flatMap_nil, List.append_nil]
    rcases htrail with rfl | rfl
    · rw [List.append_nil, idByPathLoop_last, findEntryByName_name h]
      cases tree.find? (fun te => te.name = n) <;> rfl
    · rw [idByPathLoop_slash, findEntryByName_name h]
      cases tree.find? (fun te => te.name = n) <;> rfl
  | cons m names ih =>
    obtain ⟨c, cs, hr, -⟩ := relPath_head m names
    have hpath : relPath (n :: m :: names) ++ trail
        = n.val ++ '/' :: (relPath (m :: names) ++ trail) := by
      rw [relPath, slashed_cons, List.append_assoc]
      rfl
    rw [hpath, idByPathLoop_slash, findEntryByName_name h]
    cases tree.find? (fun te => te.name = n) with
    | none => rfl
    | some te' =>
      dsimp only
      rw [if_pos (by rw [hr]; exact List.cons_ne_nil _ _), lookUpFrom]
      cases hopen : gotObjectOpenAsTree te'.id with
      | error e => rfl
      | ok next =>
        rw [ok_bind, ok_bind, ih (notPast_of_nameOrder (open_order hopen))]

/-- The root has separators only. -/
theorem gotPathIsRootDir_iff {path : Str} :
    gotPathIsRootDir path = true ↔ path.dropWhile (· = '/') = [] := by
  rw [gotPathIsRootDir, decide_eq_true_iff]

/-- **What is at a path of names** is what is found by looking the names up in turn,
whatever separators are in front of them, and with or without one behind them. -/
theorem gotObjectIdByPathStr_eq {ι : Type} (repo : Repository ι) (commitId : ι) {path : Str}
    {names : List Name} {trail : Str} (htrail : trail = [] ∨ trail = ['/'] ∧ names ≠ [])
    (hpath : path.dropWhile (· = '/') = relPath names ++ trail) :
    repo.gotObjectIdByPathStr commitId path
      = (do
          let commit ← repo.gotObjectOpenAsCommit commitId
          lookUpFrom commit.treeId names) := by
  unfold Repository.gotObjectIdByPathStr
  cases repo.gotObjectOpenAsCommit commitId with
  | error e => rfl
  | ok commit =>
    rw [ok_bind, ok_bind]
    cases names with
    | nil =>
      have htrail : trail = [] := htrail.resolve_right fun h => h.2 rfl
      rw [htrail] at hpath
      rw [if_pos (gotPathIsRootDir_iff.mpr hpath)]
      rfl
    | cons n names =>
      obtain ⟨c, cs, hr, -⟩ := relPath_head n names
      have hroot : ¬gotPathIsRootDir path = true := by
        rw [gotPathIsRootDir_iff, hpath, hr]
        exact List.cons_ne_nil _ _
      rw [if_neg hroot, lookUpFrom]
      dsimp only
      cases hopen : gotObjectOpenAsTree commit.treeId with
      | error e => rfl
      | ok tree =>
        rw [ok_bind, ok_bind, hpath, idByPathLoop_relPath
          (notPast_of_nameOrder (open_order hopen)) none n names (htrail.imp_right And.left)]

/-- A canonical path is looked up name by name. -/
theorem gotObjectIdByPathStr_canonicalPath {ι : Type} (repo : Repository ι) (commitId : ι)
    (absolute : Bool) (names : List Name) :
    repo.gotObjectIdByPathStr commitId (canonicalPath absolute names)
      = (do
          let commit ← repo.gotObjectOpenAsCommit commitId
          lookUpFrom commit.treeId names) := by
  refine gotObjectIdByPathStr_eq repo commitId (Or.inl rfl) ?_
  rw [List.append_nil, dropWhile_canonicalPath]

/-! ## Paths as lists of names -/

/-- The walk by path takes one name at a time and goes on in the object found. -/
theorem idBySegments_cons {es : List TreeEntry} (h : NameOrder es) (n : Name) (names : List Name) :
    idBySegments es (n :: names)
      = match es.find? (fun te => te.name = n) with
        | none => .error .noTreeEntry
        | some te => lookUpFrom te.id names := by
  induction names generalizing es n with
  | nil =>
    rw [idBySegments, findEntryByName_name (notPast_of_nameOrder h)]
    cases es.find? (fun te => te.name = n) <;> rfl
  | cons m names ih =>
    rw [idBySegments, findEntryByName_name (notPast_of_nameOrder h)]
    cases es.find? (fun te => te.name = n) with
    | none => rfl
    | some te =>
      dsimp only
      rw [if_neg (List.cons_ne_nil m names), lookUpFrom]
      cases hopen : gotObjectOpenAsTree te.id with
      | error e => rfl
      | ok next => rw [ok_bind, ok_bind, ih (open_order hopen)]

/-- **The walk over a path** is the one over its names, which the rest of the development
has for it. -/
theorem gotObjectIdByPathStr_eq_gotObjectIdByPath {ι : Type} (repo : Repository ι) (commitId : ι)
    (absolute : Bool) (names : List Name) :
    repo.gotObjectIdByPathStr commitId (canonicalPath absolute names)
      = repo.gotObjectIdByPath commitId names := by
  rw [gotObjectIdByPathStr_canonicalPath, Repository.gotObjectIdByPath]
  cases repo.gotObjectOpenAsCommit commitId with
  | error e => rfl
  | ok commit =>
    rw [ok_bind, ok_bind]
    cases names with
    | nil => rfl
    | cons n names =>
      rw [if_neg (List.cons_ne_nil n names), lookUpFrom]
      cases hopen : gotObjectOpenAsTree commit.treeId with
      | error e => rfl
      | ok tree => rw [ok_bind, ok_bind, idBySegments_cons (open_order hopen)]

/-! ## The scan and the walk -/

theorem isName_aDash : ['a', '-'] ≠ [] ∧ '/' ∉ ['a', '-'] := by decide

/-- **Looking up names is right.** In a tree that is sorted the way git sorts it, or in the
order of paths, the scan finds the entry of the name if there is one; and the walk along a
canonical path finds what its components lead to, looked up in turn, or fails as the first
of them that is missing. -/
theorem findEntryByName_correct :
    (∀ es : List TreeEntry,
      InGitOrder (fun te => te.name.val) (fun te => S_ISDIR te.mode) es
          ∨ InPathOrder (fun te => te.name.val) es →
        ∀ name, findEntryByName es name = es.find? (fun te => te.name.val = name))
    ∧ (∀ entries : List ObjectFile.ParsedTreeEntry,
      InGitOrder ObjectFile.ParsedTreeEntry.name (fun pte => S_ISDIR pte.mode) entries
          ∨ InPathOrder ObjectFile.ParsedTreeEntry.name entries
            ∧ (∀ pte ∈ entries, '/' ∉ pte.name) →
        ∀ name, ObjectFile.findEntryByName entries name
          = entries.find? (fun pte => pte.name = name))
    ∧ ∀ (ι : Type) (repo : Repository ι) (commitId : ι) (absolute : Bool) (names : List Name),
      repo.gotObjectIdByPathStr commitId (canonicalPath absolute names)
        = (do
            let commit ← repo.gotObjectOpenAsCommit commitId
            lookUpFrom commit.treeId names) := by
  refine ⟨fun es h name => ?_, fun entries h name => ?_, fun ι repo commitId absolute names =>
    gotObjectIdByPathStr_canonicalPath repo commitId absolute names⟩
  · rcases h with h | h
    · exact findEntryByName_eq_find? h.notPast name
    · exact findEntryByName_eq_find? (h.notPast fun te _ => te.name.2.2) name
  · rcases h with h | h
    · exact findByName_eq_find? h.notPast name
    · exact findByName_eq_find? (h.1.notPast h.2) name

/-- A directory, which git sorts behind a file that its name is the beginning of. -/
def gitSortedTree : List TreeEntry :=
  [⟨S_IFREG, ⟨['a', '-'], isName_aDash⟩, .blob []⟩, ⟨S_IFDIR, ⟨['a'], isName_a⟩, .tree .nil⟩]

/-- The same names in the order of paths. -/
def pathSortedEntries : List ObjectFile.ParsedTreeEntry :=
  [⟨S_IFDIR, ['a'], oidOf []⟩, ⟨S_IFREG, ['a', '-'], oidOf []⟩]

/-- The theorem at work on names of which one begins another, in both orders. -/
theorem findEntryByName_correct_prefixes :
    findEntryByName gitSortedTree ['a'] = some ⟨S_IFDIR, ⟨['a'], isName_a⟩, .tree .nil⟩
      ∧ ObjectFile.findEntryByName pathSortedEntries ['a', '-']
        = some ⟨S_IFREG, ['a', '-'], oidOf []⟩ :=
  ⟨findEntryByName_correct.1 gitSortedTree (Or.inl (by unfold InGitOrder; decide)) ['a'],
    findEntryByName_correct.2.1 pathSortedEntries
      (Or.inr ⟨by unfold InPathOrder; decide, by decide⟩) ['a', '-']⟩

end Got

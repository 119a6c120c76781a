import Mathlib.Data.List.Infix
import Got.FileIndex.DiffLaw
import Got.PathTrim

/-!
# Ignore patterns

Before it walks through a directory, `got status` reads the files `.cvsignore` and
`.gitignore` of its parents, and then those of each directory that it traverses. The patterns
of a file are put in a path list, behind the path of the directory, and the list is put in
another path list by this path. A path list refuses what compares equal to one of its
elements. So of two files in a directory only the first one counts, and of patterns that
differ in separators at their ends only the first one does (`mem_ignoresAfter_iff`).

A pattern that begins with `**/` is tried at all levels of a path if it still begins so
behind the path of its directory. This is the case in the root directory, and in a directory
with the name `**`. What follows from all of this for `match_ignores` is
`matchIgnores_correct_iff`.
-/

namespace Got

/-- The files with ignore patterns. -/
inductive IgnoresFile
  | cvsignore
  | gitignore

/-- **`fnmatch(3)`**, with `FNM_LEADING_DIR`, and with or without `FNM_PATHNAME`. -/
abbrev Fnmatch := (pathname : Bool) → (pattern string : Str) → Bool

/-- **The patterns of a directory.** -/
structure Ignorelist where
  path : Str
  patterns : List Str

/-- A line that is neither a comment nor a negated pattern. -/
def isPattern (line : Str) : Bool := line.head? ≠ some '#' ∧ line.head? ≠ some '!'

/-- A pattern behind the path of its directory. -/
def inDir (path line : Str) : Str := path ++ (if path = [] then [] else ['/']) ++ line

/-- **`read_ignores`**, of the lines of a file. -/
def readIgnores (ignores : List Ignorelist) (path : Str) (lines : List Str) : List Ignorelist :=
  let ignorelist := lines.foldl (fun list line =>
    if isPattern line then (gotPathlistInsert id list (inDir path line)).getD list else list) []
  (gotPathlistInsert Ignorelist.path ignores ⟨path, ignorelist⟩).getD ignores

/-! ## Matching -/

section Match

variable (fnmatch : Fnmatch)

/-- What a pattern for every level starts with. -/
def starStarSlash : Str := ['*', '*', '/']

/-- What stands for any number of levels inside a pattern. -/
def slashStarStarSlash : Str := ['/', '*', '*', '/']

/-- The path from the next directory on. -/
def nextLevel (p : Str) : Str := (p.dropWhile (· ≠ '/')).dropWhile (· = '/')

/-- A pattern is tried at each level of a path. -/
def matchLevels (pattern : Str) : ℕ → Str → Bool
  | 0, _ => false
  | fuel + 1, p =>
    if p = [] then false
    else if fnmatch true pattern p then true
    else matchLevels pattern fuel (nextLevel p)

/-- A pattern is tried on a path. -/
def matchPath (pattern path : Str) : Bool :=
  fnmatch (decide ¬slashStarStarSlash <:+: pattern) pattern path

/-- **`match_ignores`** -/
def matchIgnores (ignores : List Ignorelist) (path : Str) : Bool :=
  (ignores.any fun pe => pe.patterns.any fun pattern =>
      decide (starStarSlash <+: pattern) && matchLevels fnmatch (pattern.drop 3) path.length path)
    || ignores.reverse.any fun pe =>
      gotPathIsChild path pe.path && pe.patterns.any fun pattern => matchPath fnmatch pattern path

end Match

/-! ## Reading -/

section Read

variable (files : Str → IgnoresFile → Option (List Str))

/-- **`add_ignores`**, of a file that may not be there. -/
def addIgnores (ignores : List Ignorelist) (path : Str) (file : IgnoresFile) : List Ignorelist :=
  match files path file with
  | none => ignores
  | some lines => readIgnores ignores path lines

/-- **`status_traverse`** -/
def statusTraverse (ignores : List Ignorelist) (path : Str) : List Ignorelist :=
  addIgnores files (addIgnores files ignores path .cvsignore) path .gitignore

/-- The loop of `add_ignores_from_parent_paths`, which does as `status_traverse`. -/
def addIgnoresLoop : ℕ → List Ignorelist → Str → Except GotErr (List Ignorelist)
  | 0, _, _ => .error .fuel
  | fuel + 1, ignores, parentPath =>
    let ignores := statusTraverse files ignores parentPath
    match gotPathDirname parentPath with
    | .error e => if e = .badPath then .ok ignores else .error e
    | .ok nextParentPath => addIgnoresLoop fuel ignores nextParentPath

/-- **`add_ignores_from_parent_paths`** -/
def addIgnoresFromParentPaths (ignores : List Ignorelist) (path : Str) :
    Except GotErr (List Ignorelist) :=
  let ignores := statusTraverse files ignores []
  match gotPathDirname path with
  | .error e => if e = .badPath then .ok ignores else .error e
  | .ok parentPath => addIgnoresLoop files (path.length + 1) ignores parentPath

/-- **What was read** for a path when some directories were traversed. -/
def ignoresAfter (path : Str) (traversed : List Str) : Except GotErr (List Ignorelist) := do
  let ignores ← addIgnoresFromParentPaths files [] path
  return traversed.foldl (statusTraverse files) ignores

end Read

/-! ## The levels of a path -/

/-- The next level of a path drops its first name. -/
theorem nextLevel_relPath (n : Name) (rest : List Name) :
    nextLevel (relPath (n :: rest)) = relPath rest := by
  unfold nextLevel
  rw [relPath, List.dropWhile_append_of_pos fun c hc => n.ne_slash hc]
  cases rest with
  | nil => rfl
  | cons m rest =>
    rw [slashed_cons, List.dropWhile_cons_of_neg (by simp), List.dropWhile_cons_of_pos (by simp),
      dropWhile_relPath]

/-- **A pattern matches at some level** of a path. -/
def AtSomeLevel (fnmatch : Fnmatch) (pattern : Str) (names : List Name) : Prop :=
  ∃ k, k < names.length ∧ fnmatch true pattern (relPath (names.drop k))

/-- The path gets shorter from level to level. -/
theorem length_relPath_le (n : Name) (rest : List Name) :
    (relPath rest).length < (relPath (n :: rest)).length := by
  have hn : 0 < n.val.length := List.length_pos_iff.mpr n.2.1
  rw [relPath, List.length_append]
  cases rest with
  | nil => exact Nat.lt_of_lt_of_le hn (Nat.le_add_right _ _)
  | cons m rest =>
    rw [slashed_cons, List.length_cons]
    omega

theorem relPath_eq_nil_iff {names : List Name} : relPath names = [] ↔ names = [] := by
  cases names with
  | nil => exact iff_of_true rfl rfl
  | cons n rest =>
    obtain ⟨c, cs, h, -⟩ := relPath_head n rest
    rw [h]
    exact iff_of_false (List.cons_ne_nil _ _) (List.cons_ne_nil _ _)

/-- A pattern matches at some level when it matches here or at a level below. -/
theorem atSomeLevel_cons {fnmatch : Fnmatch} {pattern : Str} {n : Name} {rest : List Name} :
    AtSomeLevel fnmatch pattern (n :: rest)
      ↔ fnmatch true pattern (relPath (n :: rest)) ∨ AtSomeLevel fnmatch pattern rest := by
  constructor
  · rintro ⟨k, hk, hmatch⟩
    cases k with
    | zero => exact Or.inl hmatch
    | succ k => exact Or.inr ⟨k, Nat.lt_of_succ_lt_succ hk, hmatch⟩
  · rintro (hmatch | ⟨k, hk, hmatch⟩)
    · exact ⟨0, Nat.succ_pos _, hmatch⟩
    · exact ⟨k + 1, Nat.succ_lt_succ hk, hmatch⟩

/-- **The levels are tried** one after the other. -/
theorem matchLevels_iff {fnmatch : Fnmatch} {pattern : Str} {names : List Name} {fuel : ℕ}
    (hfuel : (relPath names).length ≤ fuel) :
    matchLevels fnmatch pattern fuel (relPath names) ↔ AtSomeLevel fnmatch pattern names := by
  induction names generalizing fuel with
  | nil =>
    have hnone : matchLevels fnmatch pattern fuel (relPath []) = false := by
      cases fuel with
      | zero => rfl
      | succ fuel => exact if_pos rfl
    rw [hnone]
    refine iff_of_false Bool.false_ne_true ?_
    rintro ⟨k, hk, -⟩
    exact Nat.not_lt_zero k hk
  | cons n rest ih =>
    have hless := length_relPath_le n rest
    obtain ⟨m, rfl⟩ : ∃ m, fuel = m + 1 := ⟨fuel - 1, by omega⟩
    have hm : (relPath rest).length ≤ m := by omega
    rw [matchLevels, if_neg (mt relPath_eq_nil_iff.mp (List.cons_ne_nil n rest)),
      nextLevel_relPath, atSomeLevel_cons, ← ih hm]
    by_cases hmatch : fnmatch true pattern (relPath (n :: rest)) = true
    · rw [if_pos hmatch]
      exact iff_of_true rfl (Or.inl hmatch)
    · rw [if_neg hmatch]
      exact (or_iff_right hmatch).symm

/-! ## What is read -/

section Spec

variable {files : Str → IgnoresFile → Option (List Str)}

/-- The patterns in a file. -/
def patternsOf (path : Str) (lines : List Str) : List Str :=
  (lines.filter isPattern).map (inDir path)

/-- What a path list keeps of patterns. -/
def ignorelistOf (path : Str) (lines : List Str) : Ignorelist :=
  ⟨path, (patternsOf path lines).foldl (fun l a => (gotPathlistInsert id l a).getD l) []⟩

theorem readIgnores_eq (ignores : List Ignorelist) (path : Str) (lines : List Str) :
    readIgnores ignores path lines
      = (gotPathlistInsert Ignorelist.path ignores (ignorelistOf path lines)).getD ignores := by
  unfold readIgnores ignorelistOf patternsOf
  rw [List.foldl_map, List.foldl_filter]

/-- The lists that are read in a directory. -/
def listsOf (files : Str → IgnoresFile → Option (List Str)) (path : Str) : List Ignorelist :=
  [IgnoresFile.cvsignore, .gitignore].filterMap fun file =>
    (files path file).map (ignorelistOf path)

/-- **Reading the patterns of a directory** inserts the lists it has, one after the other, the first
of a path being kept. -/
theorem statusTraverse_eq (ignores : List Ignorelist) (path : Str) :
    statusTraverse files ignores path
      = (listsOf files path).foldl (fun l a => (gotPathlistInsert Ignorelist.path l a).getD l)
        ignores := by
  unfold statusTraverse listsOf addIgnores
  cases hcvs : files path .cvsignore with
  | none =>
    cases hgit : files path .gitignore with
    | none => simp [hcvs, hgit]
    | some lines => simp [hcvs, hgit, readIgnores_eq]
  | some lines =>
    cases hgit : files path .gitignore with
    | none => simp [hcvs, hgit, readIgnores_eq]
    | some lines' => simp [hcvs, hgit, readIgnores_eq]

end Spec

/-! ## The parents of a path -/

theorem relPath_concat {p : List Name} (hp : p ≠ []) (n : Name) :
    relPath (p ++ [n]) = relPath p ++ '/' :: n.val := by
  obtain ⟨m, p, rfl⟩ := List.exists_cons_of_ne_nil hp
  rw [List.cons_append, relPath, relPath, slashed_append, List.append_assoc]
  exact congrArg (fun s => m.val ++ (slashed p ++ '/' :: s)) (List.append_nil n.val)

/-- A name does not end in a separator. -/
theorem dropWhile_reverse_name (n : Name) (rest : Str) :
    (n.val.reverse ++ rest).dropWhile (· = '/') = n.val.reverse ++ rest := by
  have hne : n.val.reverse ≠ [] := fun h => n.2.1 (List.reverse_eq_nil_iff.mp h)
  obtain ⟨c, cs, hc⟩ := List.exists_cons_of_ne_nil hne
  have hmem : c ∈ n.val := List.mem_reverse.mp (hc ▸ List.mem_cons_self)
  rw [hc, List.cons_append, List.dropWhile_cons_of_neg]
  exact fun h => of_decide_eq_true (n.ne_slash hmem) (of_decide_eq_true h)

/-- Neither does a path of names. -/
theorem reverse_relPath_concat (p : List Name) (n : Name) :
    ∃ rest, (relPath (p ++ [n])).reverse = n.val.reverse ++ rest
      ∧ (p = [] ∧ rest = [] ∨ p ≠ [] ∧ rest = '/' :: (relPath p).reverse) := by
  by_cases hp : p = []
  · subst hp
    exact ⟨[], congrArg List.reverse (List.append_nil n.val) |>.trans (List.append_nil _).symm,
      Or.inl ⟨rfl, rfl⟩⟩
  · refine ⟨'/' :: (relPath p).reverse, ?_, Or.inr ⟨hp, rfl⟩⟩
    rw [relPath_concat hp, List.reverse_append, List.reverse_cons, List.append_assoc]
    rfl

/-- The directory of a relative path drops its last name, and is `.` for a single one. -/
theorem dirname_relPath (p : List Name) (n : Name) :
    dirname (relPath (p ++ [n])) = if p = [] then ['.'] else relPath p := by
  have hne : relPath (p ++ [n]) ≠ [] :=
    mt relPath_eq_nil_iff.mp (List.append_ne_nil_of_right_ne_nil p (List.cons_ne_nil n []))
  obtain ⟨rest, hrev, hrest⟩ := reverse_relPath_concat p n
  have hrne : n.val.reverse ++ rest ≠ [] :=
    hrev ▸ fun h => hne (List.reverse_eq_nil_iff.mp h)
  unfold dirname
  dsimp only
  rw [if_neg hne, hrev, dropWhile_reverse_name, if_neg hrne]
  rcases hrest with ⟨hp, rfl⟩ | ⟨hp, rfl⟩
  · rw [if_pos hp, List.append_nil, if_pos fun h => n.2.2 (List.mem_reverse.mp h)]
  · have hdrop : (relPath p).reverse.dropWhile (· = '/') = (relPath p).reverse := by
      rcases List.eq_nil_or_concat p with rfl | ⟨p, m, rfl⟩
      · rfl
      · rw [List.concat_eq_append]
        obtain ⟨rest, hrev, -⟩ := reverse_relPath_concat p m
        rw [hrev, dropWhile_reverse_name]
    rw [if_neg hp, if_neg (not_not.mpr (List.mem_append_right _ List.mem_cons_self)),
      List.dropWhile_append_of_pos (fun c hc => n.ne_slash (List.mem_reverse.mp hc)),
      List.dropWhile_cons_of_neg (by simp), List.dropWhile_cons_of_pos (by simp), hdrop,
      if_neg fun h => hp (relPath_eq_nil_iff.mp (List.reverse_eq_nil_iff.mp h)),
      List.reverse_reverse]

theorem isName_dot : ['.'] ≠ [] ∧ '/' ∉ ['.'] := by decide

/-- The name of the current directory. -/
def dotName : Name := ⟨['.'], isName_dot⟩

/-- **A path has no parent that is traversed** if there is nothing in front of its last
name but, perhaps, the current directory. -/
theorem gotPathDirname_relPath (p : List Name) (n : Name)
    (h : (relPath (p ++ [n])).length < PATH_MAX) :
    gotPathDirname (relPath (p ++ [n]))
      = if p = [] ∨ p = [dotName] then .error .badPath else .ok (relPath p) := by
  have hdot : relPath p = ['.'] ↔ p = [dotName] := relPath_injective (q := [dotName])
  unfold gotPathDirname
  rw [if_neg (Nat.not_le_of_lt h), dirname_relPath]
  by_cases hp : p = []
  · rw [if_pos hp, if_pos rfl, if_pos (Or.inl hp)]
  · rw [if_neg hp]
    by_cases hpd : p = [dotName]
    · rw [if_pos (hdot.mpr hpd), if_pos (Or.inr hpd)]
    · rw [if_neg (mt hdot.mp hpd), if_neg fun h => h.elim hp hpd]

section Spec

variable {files : Str → IgnoresFile → Option (List Str)} {ignores : List Ignorelist}

/-- **The loop goes up** to the first name of a path. -/
theorem addIgnoresLoop_eq {fuel : ℕ} {p : List Name} (hp : p ≠ [] ∧ p ≠ [dotName])
    (hshort : (relPath p).length < PATH_MAX) (hfuel : p.length < fuel) :
    ∃ dirs : List (List Name), addIgnoresLoop files fuel ignores (relPath p)
        = .ok ((dirs.map relPath).foldl (statusTraverse files) ignores)
      ∧ ∀ d, d ∈ dirs ↔ d <+: p ∧ d ≠ [] ∧ d ≠ [dotName] := by
  induction p using List.reverseRecOn generalizing fuel ignores with
  | nil => exact absurd rfl hp.1
  | append_singleton p n ih =>
    cases fuel with
    | zero => exact absurd hfuel (Nat.not_lt_zero _)
    | succ fuel =>
      have hpre : ∀ d, d <+: p ++ [n] ↔ d = p ++ [n] ∨ d <+: p := fun d =>
        List.prefix_concat_iff
      rw [addIgnoresLoop, gotPathDirname_relPath p n hshort]
      by_cases hstop : p = [] ∨ p = [dotName]
      · rw [if_pos hstop]
        refine ⟨[p ++ [n]], rfl, fun d => ?_⟩
        rw [List.mem_singleton, hpre]
        constructor
        · rintro rfl
          exact ⟨Or.inl rfl, hp⟩
        · rintro ⟨rfl | hd, hne, hdot⟩
          · rfl
          · rcases hstop with rfl | rfl
            · exact absurd (List.prefix_nil.mp hd) hne
            · rcases List.prefix_cons_iff.mp hd with rfl | ⟨t, rfl, ht⟩
              · exact absurd rfl hne
              · rw [List.prefix_nil.mp ht] at hdot
                exact absurd rfl hdot
      · rw [if_neg hstop]
        have hlen : (relPath p).length < PATH_MAX := by
          rw [relPath_concat fun h => hstop (Or.inl h), List.length_append] at hshort
          exact Nat.lt_of_le_of_lt (Nat.le_add_right _ _) hshort
        rw [List.length_append, List.length_singleton] at hfuel
        obtain ⟨dirs, hloop, hdirs⟩ := @ih (statusTraverse files ignores (relPath (p ++ [n]))) fuel
          ⟨fun h => hstop (Or.inl h), fun h => hstop (Or.inr h)⟩ hlen (Nat.lt_of_succ_lt_succ hfuel)
        refine ⟨(p ++ [n]) :: dirs, hloop, fun d => ?_⟩
        rw [List.mem_cons, hdirs, hpre, or_and_right]
        refine or_congr ⟨?_, And.left⟩ Iff.rfl
        rintro rfl
        exact ⟨rfl, hp⟩

end Spec

/-! ## What is in force -/

section Spec

variable {files : Str → IgnoresFile → Option (List Str)} {ignores : List Ignorelist}
  {statusNames d : List Name} {traversed : List (List Name)} {pe : Ignorelist} {pattern : Str}

/-- **The directories whose patterns are read** for a path: the root, those that are
traversed, and the parents of the path. -/
def Visited (statusNames : List Name) (traversed : List (List Name)) (d : List Name) : Prop :=
  d = [] ∨ d ∈ traversed ∨ d <+: statusNames ∧ d ≠ statusNames ∧ d ≠ [dotName]

/-- **A pattern of a directory that is in force**: it is in the first one of its files, and
none before it there differs from it only in separators at the ends. -/
def InForce (files : Str → IgnoresFile → Option (List Str)) (d : List Name) (pattern : Str) :
    Prop :=
  ∃ lines, (files (relPath d) .cvsignore <|> files (relPath d) .gitignore) = some lines
    ∧ FirstOf trimKey (patternsOf (relPath d) lines) pattern

theorem length_le_length_relPath (p : List Name) : p.length ≤ (relPath p).length := by
  induction p with
  | nil => exact Nat.zero_le _
  | cons n p ih => exact Nat.lt_of_le_of_lt ih (length_relPath_le n p)

/-- **Reading ends**, and it has visited these directories. -/
theorem ignoresAfter_eq (hshort : (relPath statusNames).length < PATH_MAX) :
    ∃ dirs : List (List Name),
      ignoresAfter files (relPath statusNames) (traversed.map relPath)
        = .ok ((dirs.map relPath).foldl (statusTraverse files) [])
      ∧ ∀ d, d ∈ dirs ↔ Visited statusNames traversed d := by
  obtain ⟨parents, hparents, hmem⟩ : ∃ parents : List (List Name),
      addIgnoresFromParentPaths files [] (relPath statusNames)
        = .ok ((parents.map relPath).foldl (statusTraverse files) [])
      ∧ ∀ d, d ∈ parents ↔ d = [] ∨ d <+: statusNames ∧ d ≠ statusNames ∧ d ≠ [dotName] := by
    unfold addIgnoresFromParentPaths
    rcases List.eq_nil_or_concat statusNames with rfl | ⟨p, n, rfl⟩
    · refine ⟨[[]], rfl, fun d => List.mem_singleton.trans (or_iff_left ?_).symm⟩
      rintro ⟨hd, hne, -⟩
      exact hne (List.prefix_nil.mp hd)
    rw [List.concat_eq_append] at hshort ⊢
    have hproper : ∀ d, d <+: p ++ [n] ∧ d ≠ p ++ [n] ↔ d <+: p := by
      intro d
      constructor
      · rintro ⟨hd, hne⟩
        exact (List.prefix_concat_iff.mp hd).resolve_left hne
      · intro hd
        refine ⟨hd.trans (List.prefix_append p [n]), fun heq => ?_⟩
        have hlen := hd.length_le
        rw [heq, List.length_append, List.length_singleton] at hlen
        exact absurd hlen (Nat.not_succ_le_self _)
    have hparent : ∀ d, d = [] ∨ d <+: p ++ [n] ∧ d ≠ p ++ [n] ∧ d ≠ [dotName]
        ↔ d = [] ∨ d <+: p ∧ d ≠ [] ∧ d ≠ [dotName] := by
      intro d
      rw [← and_assoc, hproper]
      by_cases hd : d = []
      · exact iff_of_true (Or.inl hd) (Or.inl hd)
      · rw [and_iff_right (show d ≠ [] from hd)]
    rw [gotPathDirname_relPath p n hshort]
    by_cases hstop : p = [] ∨ p = [dotName]
    · rw [if_pos hstop]
      refine ⟨[[]], rfl, fun d => List.mem_singleton.trans (Iff.trans ?_ (hparent d).symm)⟩
      refine (or_iff_left ?_).symm
      rintro ⟨hd, hne, hdot⟩
      rcases hstop with rfl | rfl
      · exact hne (List.prefix_nil.mp hd)
      · rcases List.prefix_cons_iff.mp hd with rfl | ⟨t, rfl, ht⟩
        · exact hne rfl
        · rw [List.prefix_nil.mp ht] at hdot
          exact hdot rfl
    · rw [if_neg hstop]
      have hp : p ≠ [] ∧ p ≠ [dotName] := not_or.mp hstop
      have hlen : (relPath p).length ≤ (relPath (p ++ [n])).length := by
        rw [relPath_concat hp.1, List.length_append]
        exact Nat.le_add_right _ _
      have hfuel : p.length < (relPath (p ++ [n])).length + 1 :=
        Nat.lt_succ_of_le (Nat.le_trans (length_le_length_relPath p) hlen)
      obtain ⟨dirs, hloop, hdirs⟩ := @addIgnoresLoop_eq files (statusTraverse files [] []) _ _ hp
        (Nat.lt_of_le_of_lt hlen hshort) hfuel
      refine ⟨[] :: dirs, hloop, fun d => ?_⟩
      rw [List.mem_cons, hdirs, hparent]
  refine ⟨parents ++ traversed, ?_, fun d => ?_⟩
  · rw [ignoresAfter, hparents, List.map_append, List.foldl_append]
    rfl
  · unfold Visited
    rw [List.mem_append, hmem, or_assoc, or_comm (a := _ ∧ _)]

theorem listsOf_path {path : Str} (h : pe ∈ listsOf files path) : pe.path = path := by
  obtain ⟨file, -, hfile⟩ := List.mem_filterMap.mp h
  obtain ⟨lines, -, rfl⟩ := Option.map_eq_some_iff.mp hfile
  rfl

/-- Of the files of a directory the first one counts. -/
theorem head_listsOf (path : Str) :
    (listsOf files path).head?
      = (files path .cvsignore <|> files path .gitignore).map (ignorelistOf path) := by
  unfold listsOf
  cases hcvs : files path .cvsignore with
  | none =>
    cases hgit : files path .gitignore <;> simp [hcvs, hgit]
  | some lines => simp [hcvs]

/-- **What is put in the list of lists**: of each directory the first list. -/
theorem mem_foldl_statusTraverse_iff {dirs : List (List Name)} :
    pe ∈ (dirs.map relPath).foldl (statusTraverse files) []
      ↔ ∃ d ∈ dirs, (listsOf files (relPath d)).head? = some pe := by
  have hfold : (dirs.map relPath).foldl (statusTraverse files) []
      = (dirs.flatMap fun d => listsOf files (relPath d)).foldl
          (fun l a => (gotPathlistInsert Ignorelist.path l a).getD l) [] := by
    rw [List.foldl_flatMap, List.foldl_map]
    exact congrFun (congrFun (congrArg List.foldl
      (funext fun l => funext fun d => statusTraverse_eq l (relPath d))) _) _
  have hcmp : ∀ x y : Ignorelist, gotPathCmp x.path y.path
    = linCmp (trimKey x.path) (trimKey y.path) :=
    fun x y => gotPathCmp_eq x.path y.path
  have hinj : Function.Injective fun d : List Name => trimKey (relPath d) :=
    fun _ _ => trimKey_relPath_inj.mp
  rw [hfold]
  refine (mem_foldl_insert_iff hcmp _).trans (firstOf_flatMap hinj fun d y hy => ?_)
  rw [listsOf_path hy]

/-- Of the patterns in a file those are kept that are the first ones of their keys. -/
theorem mem_ignorelistOf_iff {path : Str} {lines : List Str} :
    pattern ∈ (ignorelistOf path lines).patterns
      ↔ FirstOf trimKey (patternsOf path lines) pattern := by
  have hcmp : ∀ x y : Str, gotPathCmp (id x) (id y) = linCmp (trimKey x) (trimKey y) :=
    gotPathCmp_eq
  exact mem_foldl_insert_iff hcmp _

/-- **What is in force after reading.** -/
theorem mem_ignoresAfter_iff (hshort : (relPath statusNames).length < PATH_MAX) :
    ∃ ignores, ignoresAfter files (relPath statusNames) (traversed.map relPath) = .ok ignores
      ∧ (∀ pe, pe ∈ ignores ↔ ∃ d, Visited statusNames traversed d
          ∧ (files (relPath d) .cvsignore <|> files (relPath d) .gitignore).map
              (ignorelistOf (relPath d)) = some pe)
      ∧ ∀ path pattern, (∃ pe ∈ ignores, pe.path = path ∧ pattern ∈ pe.patterns)
          ↔ ∃ d, Visited statusNames traversed d ∧ path = relPath d ∧ InForce files d pattern := by
  obtain ⟨dirs, hok, hdirs⟩ := @ignoresAfter_eq files _ traversed hshort
  have hmem : ∀ pe, pe ∈ (dirs.map relPath).foldl (statusTraverse files) []
      ↔ ∃ d, Visited statusNames traversed d
        ∧ (files (relPath d) .cvsignore <|> files (relPath d) .gitignore).map
            (ignorelistOf (relPath d)) = some pe := by
    intro pe
    rw [mem_foldl_statusTraverse_iff]
    exact exists_congr fun d => by rw [hdirs, head_listsOf]
  refine ⟨_, hok, hmem, fun path pattern => ?_⟩
  constructor
  · rintro ⟨pe, hpe, rfl, hpattern⟩
    obtain ⟨d, hd, hread⟩ := (hmem pe).mp hpe
    obtain ⟨lines, hlines, rfl⟩ := Option.map_eq_some_iff.mp hread
    exact ⟨d, hd, rfl, lines, hlines, mem_ignorelistOf_iff.mp hpattern⟩
  · rintro ⟨d, hd, rfl, lines, hlines, hfirst⟩
    exact ⟨ignorelistOf (relPath d) lines, (hmem _).mpr ⟨d, hd, by rw [hlines]; rfl⟩, rfl,
      mem_ignorelistOf_iff.mpr hfirst⟩

end Spec

/-! ## What should be ignored -/

section Correct

variable {fnmatch : Fnmatch} {files : Str → IgnoresFile → Option (List Str)}
  {ignores : List Ignorelist} {statusNames names d : List Name} {traversed : List (List Name)}
  {pattern line : Str}

/-- **A line of a file in a directory matches a path** below: as a whole, or, if it is
a pattern for all directories, at any level. -/
def LineMatches (fnmatch : Fnmatch) (d : List Name) (line : Str) (names : List Name) : Prop :=
  matchPath fnmatch (inDir (relPath d) line) (relPath names)
    ∨ starStarSlash <+: line
      ∧ ∃ k, d.length ≤ k ∧ k < names.length ∧ fnmatch true (line.drop 3) (relPath (names.drop k))

/-- **A path should be ignored** if a pattern from any file in a directory above it
matches. -/
def ShouldIgnore (fnmatch : Fnmatch) (files : Str → IgnoresFile → Option (List Str))
    (names : List Name) : Prop :=
  ∃ d, d <+: names ∧ d ≠ names ∧ ∃ file lines, files (relPath d) file = some lines
    ∧ ∃ line ∈ lines, isPattern line ∧ LineMatches fnmatch d line names

/-- **A pattern that should ignore a path is in force**: it is one of a directory above
and matches as a whole, or one for all directories in the root. -/
def KeptMatch (fnmatch : Fnmatch) (files : Str → IgnoresFile → Option (List Str))
    (names : List Name) : Prop :=
  (∃ d, d <+: names ∧ d ≠ names
      ∧ ∃ pattern, InForce files d pattern ∧ matchPath fnmatch pattern (relPath names))
    ∨ ∃ pattern, InForce files [] pattern ∧ starStarSlash <+: pattern
      ∧ AtSomeLevel fnmatch (pattern.drop 3) names

/-- **A directory is called like a pattern**: a pattern of it, or of one below it, is taken
for one for all directories. -/
def DirMatch (fnmatch : Fnmatch) (files : Str → IgnoresFile → Option (List Str))
    (statusNames : List Name) (traversed : List (List Name)) (names : List Name) : Prop :=
  ∃ d, d ≠ [] ∧ Visited statusNames traversed d
    ∧ ∃ pattern, InForce files d pattern ∧ starStarSlash <+: pattern
      ∧ AtSomeLevel fnmatch (pattern.drop 3) names

/-- A pattern that is in force comes from a file. -/
theorem InForce.exists_line (h : InForce files d pattern) :
    ∃ file lines, files (relPath d) file = some lines
      ∧ ∃ line ∈ lines, isPattern line ∧ pattern = inDir (relPath d) line := by
  obtain ⟨lines, hlines, hfirst⟩ := h
  obtain ⟨line, hline, rfl⟩ := List.mem_map.mp hfirst.mem
  obtain ⟨hmem, hpattern⟩ := List.mem_filter.mp hline
  cases hcvs : files (relPath d) .cvsignore with
  | none =>
    rw [hcvs] at hlines
    exact ⟨.gitignore, lines, hlines, line, hmem, hpattern, rfl⟩
  | some lines' =>
    rw [hcvs] at hlines
    obtain rfl := Option.some.inj hlines
    exact ⟨.cvsignore, lines', hcvs, line, hmem, hpattern, rfl⟩

/-- **No pattern in force is wrong**, unless a directory is called like one. -/
theorem KeptMatch.shouldIgnore (hne : names ≠ []) (h : KeptMatch fnmatch files names) :
    ShouldIgnore fnmatch files names := by
  rcases h with ⟨d, hd, hdne, pattern, hforce, hmatch⟩ | ⟨pattern, hforce, hstar, k, hk, hmatch⟩
  · obtain ⟨file, lines, hlines, line, hline, hpattern, rfl⟩ := hforce.exists_line
    exact ⟨d, hd, hdne, file, lines, hlines, line, hline, hpattern, Or.inl hmatch⟩
  · obtain ⟨file, lines, hlines, line, hline, hpattern, heq⟩ := hforce.exists_line
    have hroot : pattern = line := heq
    rw [hroot] at hstar hmatch
    exact ⟨[], List.nil_prefix, hne.symm, file, lines, hlines, line, hline, hpattern,
      Or.inr ⟨hstar, k, Nat.zero_le k, hk, hmatch⟩⟩

/-- A path is below a directory when the directory is a proper start of it. -/
theorem gotPathIsChild_names (hne : names ≠ []) :
    gotPathIsChild (relPath names) (relPath d) ↔ d <+: names ∧ d ≠ names := by
  refine isBelow_iff.trans ⟨?_, ?_⟩
  · rintro (rfl | ⟨n, s, rfl⟩)
    · exact ⟨List.nil_prefix, hne.symm⟩
    · exact ⟨List.prefix_append d (n :: s), fun h =>
        List.cons_ne_nil n s (List.self_eq_append_right.mp h)⟩
  · rintro ⟨⟨s, rfl⟩, h⟩
    cases s with
    | nil => exact absurd (List.append_nil d).symm h
    | cons n s => exact Or.inr ⟨n, s, rfl⟩

/-- **What `match_ignores` finds** in what was read. -/
theorem matchIgnores_iff (hne : names ≠ [])
    (hall : ∀ d, d <+: names → d ≠ names → Visited statusNames traversed d)
    (hread : ∀ path pattern, (∃ pe ∈ ignores, pe.path = path ∧ pattern ∈ pe.patterns)
      ↔ ∃ d, Visited statusNames traversed d ∧ path = relPath d ∧ InForce files d pattern) :
    matchIgnores fnmatch ignores (relPath names)
      ↔ KeptMatch fnmatch files names ∨ DirMatch fnmatch files statusNames traversed names := by
  have hlevels : (ignores.any fun pe => pe.patterns.any fun pattern =>
        decide (starStarSlash <+: pattern)
          && matchLevels fnmatch (pattern.drop 3) (relPath names).length (relPath names)) = true
      ↔ ∃ d, Visited statusNames traversed d ∧ ∃ pattern, InForce files d pattern
        ∧ starStarSlash <+: pattern ∧ AtSomeLevel fnmatch (pattern.drop 3) names := by
    simp only [List.any_eq_true, Bool.and_eq_true, decide_eq_true_eq,
      matchLevels_iff (Nat.le_refl _)]
    constructor
    · rintro ⟨pe, hpe, pattern, hpattern, hmatch⟩
      obtain ⟨d, hd, -, hforce⟩ := (hread _ _).mp ⟨pe, hpe, rfl, hpattern⟩
      exact ⟨d, hd, pattern, hforce, hmatch⟩
    · rintro ⟨d, hd, pattern, hforce, hmatch⟩
      obtain ⟨pe, hpe, -, hpattern⟩ := (hread _ _).mpr ⟨d, hd, rfl, hforce⟩
      exact ⟨pe, hpe, pattern, hpattern, hmatch⟩
  have hwhole : (ignores.reverse.any fun pe => gotPathIsChild (relPath names) pe.path
        && pe.patterns.any fun pattern => matchPath fnmatch pattern (relPath names)) = true
      ↔ ∃ d, d <+: names ∧ d ≠ names
        ∧ ∃ pattern, InForce files d pattern ∧ matchPath fnmatch pattern (relPath names) := by
    simp only [List.any_eq_true, Bool.and_eq_true, List.mem_reverse]
    constructor
    · rintro ⟨pe, hpe, hchild, pattern, hpattern, hmatch⟩
      obtain ⟨d, hd, hpath, hforce⟩ := (hread _ _).mp ⟨pe, hpe, rfl, hpattern⟩
      rw [hpath] at hchild
      obtain ⟨hpre, hdne⟩ := (gotPathIsChild_names hne).mp hchild
      exact ⟨d, hpre, hdne, pattern, hforce, hmatch⟩
    · rintro ⟨d, hpre, hdne, pattern, hforce, hmatch⟩
      obtain ⟨pe, hpe, hpath, hpattern⟩ :=
        (hread _ _).mpr ⟨d, hall d hpre hdne, rfl, hforce⟩
      refine ⟨pe, hpe, ?_, pattern, hpattern, hmatch⟩
      rw [hpath]
      exact (gotPathIsChild_names hne).mpr ⟨hpre, hdne⟩
  unfold matchIgnores
  rw [Bool.or_eq_true, hlevels, hwhole]
  unfold KeptMatch DirMatch
  constructor
  · rintro (⟨d, hd, hmatch⟩ | hmatch)
    · -- the root is the only directory whose patterns are as they are in the file
      by_cases hroot : d = []
      · exact Or.inl (Or.inr (hroot ▸ hmatch))
      · exact Or.inr ⟨d, hroot, hd, hmatch⟩
    · exact Or.inl (Or.inl hmatch)
  · rintro ((hmatch | hmatch) | ⟨d, -, hd, hmatch⟩)
    · exact Or.inr hmatch
    · exact Or.inl ⟨[], Or.inl rfl, hmatch⟩
    · exact Or.inl ⟨d, hd, hmatch⟩

/-- **When ignore patterns are right.** After the directories above a path were visited,
the path is ignored as it should be if and only if, when it should be, a pattern that matches
it is in force, and no directory that is called like a pattern makes the difference. And no
file is dropped if and only if no directory has two of them with different patterns. -/
theorem matchIgnores_correct_iff (fnmatch : Fnmatch)
    (files : Str → IgnoresFile → Option (List Str))
    (hshort : (relPath statusNames).length < PATH_MAX) (hne : names ≠ [])
    (hall : ∀ d, d <+: names → d ≠ names → Visited statusNames traversed d) :
    ∃ ignores, ignoresAfter files (relPath statusNames) (traversed.map relPath) = .ok ignores
      ∧ ((matchIgnores fnmatch ignores (relPath names) ↔ ShouldIgnore fnmatch files names)
        ↔ (ShouldIgnore fnmatch files names →
            KeptMatch fnmatch files names ∨ DirMatch fnmatch files statusNames traversed names)
          ∧ (DirMatch fnmatch files statusNames traversed names →
            ShouldIgnore fnmatch files names))
      ∧ ((∀ d, Visited statusNames traversed d → ∀ file lines,
            files (relPath d) file = some lines → ignorelistOf (relPath d) lines ∈ ignores)
        ↔ ∀ d, Visited statusNames traversed d → ∀ lines lines',
            files (relPath d) .cvsignore = some lines →
            files (relPath d) .gitignore = some lines' →
            ignorelistOf (relPath d) lines' = ignorelistOf (relPath d) lines) := by
  obtain ⟨ignores, hok, hmem, hread⟩ := @mem_ignoresAfter_iff files _ traversed hshort
  refine ⟨ignores, hok, ?_, ?_⟩
  · rw [matchIgnores_iff hne hall hread]
    constructor
    · intro h
      exact ⟨h.mpr, fun hdir => h.mp (Or.inr hdir)⟩
    · rintro ⟨hkept, hdir⟩
      exact ⟨fun h => h.elim (KeptMatch.shouldIgnore hne) hdir, hkept⟩
  · -- of each directory there is one list
    have hone : ∀ d list, Visited statusNames traversed d →
        (ignorelistOf (relPath d) list ∈ ignores
          ↔ (files (relPath d) .cvsignore <|> files (relPath d) .gitignore).map
              (ignorelistOf (relPath d)) = some (ignorelistOf (relPath d) list)) := by
      intro d list hd
      rw [hmem]
      constructor
      · rintro ⟨d', -, hlist⟩
        obtain ⟨lines, hlines, heq⟩ := Option.map_eq_some_iff.mp hlist
        obtain rfl := relPath_injective.mp (congrArg Ignorelist.path heq)
        exact hlist
      · exact fun h => ⟨d, hd, h⟩
    constructor
    · intro h d hd lines lines' hcvs hgit
      have hlist := (hone d lines' hd).mp (h d hd .gitignore lines' hgit)
      rw [hcvs] at hlist
      exact (Option.some.inj hlist).symm
    · intro h d hd file lines hlines
      rw [hone d lines hd]
      cases hcvs : files (relPath d) .cvsignore with
      | none =>
        cases file with
        | cvsignore => rw [hcvs] at hlines; cases hlines
        | gitignore => rw [hlines]; rfl
      | some first =>
        cases file with
        | cvsignore => rw [← hcvs, hlines]; rfl
        | gitignore =>
          rw [h d hd first lines hcvs hlines]
          rfl

end Correct

section Tests

/-- A file in the root. -/
def aFile : Name := ⟨['a'], isName_a⟩

/-- A match of plain names, and of what is below them. -/
def fnmatchPlain : Fnmatch := fun _ pattern string =>
  decide (pattern = string) || decide (pattern ++ ['/'] <+: string)

/-- Both files are in the root. -/
def bothFiles (path : Str) (file : IgnoresFile) : Option (List Str) :=
  if path = [] then
    match file with
    | .cvsignore => some [['x']]
    | .gitignore => some [['a']]
  else none

/-- The theorem at work on a directory with both files of patterns. -/
theorem matchIgnores_correct_iff_bothFiles :
    ∃ ignores, ignoresAfter bothFiles (relPath []) ([[]].map relPath) = .ok ignores
      ∧ ((matchIgnores fnmatchPlain ignores (relPath [aFile])
            ↔ ShouldIgnore fnmatchPlain bothFiles [aFile])
        ↔ (ShouldIgnore fnmatchPlain bothFiles [aFile] →
            KeptMatch fnmatchPlain bothFiles [aFile]
              ∨ DirMatch fnmatchPlain bothFiles [] [[]] [aFile])
          ∧ (DirMatch fnmatchPlain bothFiles [] [[]] [aFile] →
            ShouldIgnore fnmatchPlain bothFiles [aFile]))
      ∧ ((∀ d, Visited [] [[]] d → ∀ file lines,
            bothFiles (relPath d) file = some lines → ignorelistOf (relPath d) lines ∈ ignores)
        ↔ ∀ d, Visited [] [[]] d → ∀ lines lines',
            bothFiles (relPath d) .cvsignore = some lines →
            bothFiles (relPath d) .gitignore = some lines' →
            ignorelistOf (relPath d) lines' = ignorelistOf (relPath d) lines) := by
  refine matchIgnores_correct_iff fnmatchPlain bothFiles (by decide) (List.cons_ne_nil _ _) ?_
  intro d hd hne
  rcases List.prefix_cons_iff.mp hd with rfl | ⟨t, rfl, ht⟩
  · exact Or.inl rfl
  · exact absurd (congrArg (aFile :: ·) (List.prefix_nil.mp ht)) hne

/-- **The second file of a directory is dropped.** -/
theorem not_ignored_bothFiles :
    ¬∀ ignores, ignoresAfter bothFiles (relPath []) ([[]].map relPath) = .ok ignores →
      (matchIgnores fnmatchPlain ignores (relPath [aFile])
        ↔ ShouldIgnore fnmatchPlain bothFiles [aFile]) := by
  intro h
  have hignored : ShouldIgnore fnmatchPlain bothFiles [aFile] :=
    ⟨[], List.nil_prefix, (List.cons_ne_nil _ _).symm, .gitignore, [['a']], rfl, ['a'],
      List.mem_singleton_self _, rfl, Or.inl rfl⟩
  have hmatch := (h [⟨[], [['x']]⟩] rfl).mpr hignored
  exact absurd hmatch (by decide)

end Tests

end Got

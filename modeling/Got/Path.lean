import Mathlib.Data.Char
import Mathlib.Data.List.Lex
import Mathlib.Data.List.Nodup
import Got.Error

/-!
# Paths

Paths are strings of the C library, without the final zero. The first part of
this module is `path.c`, as far as the work tree code uses it.

The second part is what these functions mean for the paths that occur: an
absolute path that is made of names (`absPath`), where a name is neither empty
nor has a slash in it. There, being a child is being an extension
(`gotPathIsChild_absPath`), skipping a common ancestor is dropping its names
(`gotPathSkipCommonAncestor_absPath`), and `dirname` and `basename` are all
names but the last, and the last one.
-/

namespace Got

/-- A string of the C library. -/
abbrev Str := List Char

def PATH_MAX : ℕ := 1024
def NAME_MAX : ℕ := 255

/-- `got_path_is_root_dir`: nothing but slashes. -/
def gotPathIsRootDir (path : Str) : Bool := path.dropWhile (· = '/') = []

/-- **Whether a path is below another.** Everything is below the root. -/
def gotPathIsChild (child parent : Str) : Bool :=
  if parent.length = 0 ∨ gotPathIsRootDir parent then true
  else if ¬parent <+: child then false
  else child[parent.length]? = some '/'

/-- **What is left of a path below a parent.** -/
def gotPathSkipCommonAncestor (parentAbspath abspath : Str) : Except GotErr Str :=
  if abspath.length ≤ parentAbspath.length then .error .badPath
  else if ¬parentAbspath <+: abspath then .error .badPath
  else if ¬gotPathIsRootDir parentAbspath ∧ abspath[parentAbspath.length]? ≠ some '/' then
    .error .badPath
  else .ok ((abspath.drop parentAbspath.length).dropWhile (· = '/'))

/-- `dirname(3)`. -/
def dirname (path : Str) : Str :=
  let rev := path.reverse.dropWhile (· = '/')
  if path = [] then ['.']
  else if rev = [] then ['/']
  else if '/' ∉ rev then ['.']
  else
    let parent := (rev.dropWhile (· ≠ '/')).dropWhile (· = '/')
    if parent = [] then ['/'] else parent.reverse

/-- `basename(3)`. -/
def basename (path : Str) : Str :=
  let rev := path.reverse.dropWhile (· = '/')
  if path = [] then ['.']
  else if rev = [] then ['/']
  else (rev.takeWhile (· ≠ '/')).reverse

/-- `got_path_dirname`: the path of the directory, an error where there is none. -/
def gotPathDirname (path : Str) : Except GotErr Str :=
  if PATH_MAX ≤ path.length then .error .noSpace
  else if dirname path = ['.'] then .error .badPath
  else .ok (dirname path)

/-- `got_path_basename`: the last component of the path. -/
def gotPathBasename (path : Str) : Except GotErr Str :=
  if PATH_MAX ≤ path.length then .error .noSpace
  else .ok (basename path)

/-- One level up, in what was copied so far. -/
def canonUp (rev : Str) : Str := (rev.dropWhile (· ≠ '/')).tail

/-- The loop of `got_canonpath`. What was copied so far is in reverse. -/
def canonLoop (bufsize : ℕ) : ℕ → Str → Str → Except GotErr Str
  | 0, _, _ => .error .fuel
  | fuel + 1, p, rev =>
    if bufsize ≤ rev.length then .error .noSpace
    else
      match p with
      | [] => .ok rev.reverse
      | '/' :: '/' :: p => canonLoop bufsize fuel ('/' :: p) rev
      | ['/'] => canonLoop bufsize fuel [] rev
      | '/' :: '.' :: '/' :: p => canonLoop bufsize fuel ('/' :: p) rev
      | ['/', '.'] => canonLoop bufsize fuel [] rev
      | '/' :: '.' :: '.' :: '/' :: p => canonLoop bufsize fuel ('/' :: p) (canonUp rev)
      | ['/', '.', '.'] => canonLoop bufsize fuel [] (canonUp rev)
      | c :: p => canonLoop bufsize fuel p (c :: rev)

/-- `got_canonpath`, of an absolute path. -/
def gotCanonpath (input : Str) : Except GotErr Str :=
  canonLoop PATH_MAX (input.length + 1) input []

/-- `asprintf("%s%s%s")` of a directory, a slash if it is not the root, and a
name. -/
def joinPath (parentPath name : Str) : Str :=
  parentPath ++ (if gotPathIsRootDir parentPath then [] else ['/']) ++ name

/-- `strcmp(3)`. -/
def strcmp (s1 s2 : Str) : Ordering := if s1 < s2 then .lt else if s1 = s2 then .eq else .gt

/-- Skip over a common prefix. -/
def skipCommon : Str → Str → Str × Str
  | a :: as, b :: bs => if a = b then skipCommon as bs else (a :: as, b :: bs)
  | as, bs => (as, bs)

/-- Skip over redundant separators. -/
def skipSeparators : Str → Str
  | '/' :: '/' :: rest => skipSeparators ('/' :: rest)
  | rest => rest

/-- **The order of paths**, in which children come directly after their
parents. -/
def gotPathCmp (path1 path2 : Str) : Ordering :=
  let rest := skipCommon (path1.dropWhile (· = '/')) (path2.dropWhile (· = '/'))
  if rest = ([], []) then .eq
  else
    match skipSeparators rest.1, skipSeparators rest.2 with
    | ['/'], [] => .eq
    | [], ['/'] => .eq
    | '/' :: _, [] => .gt
    | [], '/' :: _ => .lt
    | '/' :: _, _ :: _ => .lt
    | _ :: _, '/' :: _ => .gt
    | [], _ => .lt
    | _, [] => .gt
    | a :: _, b :: _ => if a < b then .lt else .gt

/-- The loop of `got_pathlist_insert`, which goes backwards: `rev` is the list
from its tail. -/
def pathlistInsertRev {α : Type} (path : α → Str) (a : α) : List α → Option (List α)
  | [] => some [a]
  | pe :: rev =>
    match gotPathCmp (path pe) (path a) with
    | .eq => none
    | .lt => some (a :: pe :: rev)
    | .gt => (pathlistInsertRev path a rev).map (pe :: ·)

/-- **Insert into a list that is ordered by path.** None if the path is there
already. -/
def gotPathlistInsert {α : Type} (path : α → Str) (list : List α) (a : α) : Option (List α) :=
  (pathlistInsertRev path a list.reverse).map List.reverse

/-! ## Paths made of names -/

/-- The name of a file or directory. -/
abbrev Name := { s : Str // s ≠ [] ∧ '/' ∉ s }

/-- A letter is a name. -/
theorem isName_a : ['a'] ≠ [] ∧ '/' ∉ ['a'] := by decide

theorem isName_b : ['b'] ≠ [] ∧ '/' ∉ ['b'] := by decide

theorem isName_f : ['f'] ≠ [] ∧ '/' ∉ ['f'] := by decide

/-- The names of a path, each behind a slash. -/
def slashed (names : List Name) : Str := names.flatMap (fun n => '/' :: n.val)

/-- A path from the root. -/
def absPath (names : List Name) : Str := if names = [] then ['/'] else slashed names

/-- A path from where one is. -/
def relPath : List Name → Str
  | [] => []
  | n :: names => n.val ++ slashed names

theorem slashed_cons (n : Name) (names : List Name) :
    slashed (n :: names) = '/' :: relPath (n :: names) := rfl

theorem slashed_append (as bs : List Name) : slashed (as ++ bs) = slashed as ++ slashed bs :=
  List.flatMap_append

theorem absPath_of_ne_nil {names : List Name} (h : names ≠ []) : absPath names = slashed names :=
  if_neg h

theorem absPath_nil : absPath [] = ['/'] := rfl

theorem Name.ne_slash (n : Name) {c : Char} (hc : c ∈ n.val) : decide (c ≠ '/') = true := by
  refine decide_eq_true ?_
  rintro rfl
  exact n.2.2 hc

theorem Name.head_ne (n : Name) : ∃ c cs, n.val = c :: cs ∧ c ≠ '/' := by
  obtain ⟨s, hne, hslash⟩ := n
  cases s with
  | nil => exact absurd rfl hne
  | cons c cs => exact ⟨c, cs, rfl, fun h => hslash (h ▸ List.mem_cons_self)⟩

theorem relPath_head (n : Name) (names : List Name) :
    ∃ c cs, relPath (n :: names) = c :: cs ∧ c ≠ '/' := by
  obtain ⟨c, cs, hn, hc⟩ := n.head_ne
  exact ⟨c, cs ++ slashed names, by rw [relPath, hn]; rfl, hc⟩

/-- A relative path begins with no slash. -/
theorem dropWhile_relPath (names : List Name) :
    (relPath names).dropWhile (· = '/') = relPath names := by
  cases names with
  | nil => rfl
  | cons n names =>
    obtain ⟨c, cs, h, hc⟩ := relPath_head n names
    rw [h, List.dropWhile_cons_of_neg (by simpa using hc)]

/-- An absolute path is the root exactly when it has no names. -/
theorem gotPathIsRootDir_absPath (names : List Name) :
    gotPathIsRootDir (absPath names) ↔ names = [] := by
  cases names with
  | nil => exact ⟨fun _ => rfl, fun _ => rfl⟩
  | cons n names =>
    refine ⟨fun h => ?_, fun h => absurd h (List.cons_ne_nil n names)⟩
    obtain ⟨c, cs, hr, -⟩ := relPath_head n names
    unfold gotPathIsRootDir at h
    rw [absPath_of_ne_nil (List.cons_ne_nil n names), slashed_cons,
      List.dropWhile_cons_of_pos (by simp), dropWhile_relPath, hr] at h
    exact absurd (of_decide_eq_true h) (List.cons_ne_nil c cs)

/-- The rest of a path whose slashes begin names. -/
theorem append_slash_inj {as bs xs ys : Str} (ha : '/' ∉ as) (hb : '/' ∉ bs)
    (hx : xs = [] ∨ ∃ r, xs = '/' :: r) (hy : ys = [] ∨ ∃ r, ys = '/' :: r)
    (h : as ++ xs = bs ++ ys) : as = bs ∧ xs = ys := by
  induction as generalizing bs with
  | nil =>
    cases bs with
    | nil => exact ⟨rfl, h⟩
    | cons b bs =>
      rcases hx with rfl | ⟨r, rfl⟩
      · exact nomatch h
      · obtain ⟨rfl, -⟩ := List.cons.inj h
        exact absurd List.mem_cons_self hb
  | cons a as ih =>
    cases bs with
    | nil =>
      rcases hy with rfl | ⟨r, rfl⟩
      · exact nomatch h
      · obtain ⟨rfl, -⟩ := List.cons.inj h
        exact absurd List.mem_cons_self ha
    | cons b bs =>
      obtain ⟨rfl, htail⟩ := List.cons.inj h
      obtain ⟨rfl, rfl⟩ := ih (fun hm => ha (List.mem_cons_of_mem _ hm))
        (fun hm => hb (List.mem_cons_of_mem _ hm)) htail
      exact ⟨rfl, rfl⟩

theorem slashed_shape (names : List Name) :
    slashed names = [] ∨ ∃ r, slashed names = '/' :: r := by
  cases names with
  | nil => exact Or.inl rfl
  | cons n names => exact Or.inr ⟨_, slashed_cons n names⟩

/-- **A path has only one list of names**, also as a beginning of a longer
path. -/
theorem slashed_append_eq_iff {as bs : List Name} {r : Str} (hr : r = [] ∨ ∃ s, r = '/' :: s) :
    slashed as ++ r = slashed bs ↔ ∃ cs, bs = as ++ cs ∧ r = slashed cs := by
  constructor
  · intro h
    induction as generalizing bs with
    | nil => exact ⟨bs, rfl, h⟩
    | cons a as ih =>
      cases bs with
      | nil => exact nomatch h
      | cons b bs =>
        rw [slashed_cons, slashed_cons, relPath, relPath, List.cons_append,
          List.append_assoc] at h
        have hshape : slashed as ++ r = [] ∨ ∃ s, slashed as ++ r = '/' :: s := by
          rcases slashed_shape as with hs | ⟨s, hs⟩
          · rw [hs]
            exact hr
          · rw [hs]
            exact Or.inr ⟨_, rfl⟩
        obtain ⟨hname, hrest⟩ := append_slash_inj a.2.2 b.2.2 hshape (slashed_shape bs)
          (List.cons.inj h).2
        obtain rfl := Subtype.ext hname
        obtain ⟨cs, rfl, rfl⟩ := ih hrest
        exact ⟨cs, rfl, rfl⟩
  · rintro ⟨cs, rfl, rfl⟩
    exact (slashed_append as cs).symm

/-- Names joined by slashes are told apart, since no name has a slash. -/
theorem slashed_injective {as bs : List Name} : slashed as = slashed bs ↔ as = bs := by
  have h : slashed as ++ [] = slashed bs ↔ ∃ cs, bs = as ++ cs ∧ [] = slashed cs :=
    slashed_append_eq_iff (Or.inl rfl)
  rw [List.append_nil] at h
  rw [h]
  constructor
  · rintro ⟨cs, rfl, hcs⟩
    cases cs with
    | nil => exact (List.append_nil as).symm
    | cons c cs => exact nomatch hcs
  · rintro rfl
    exact ⟨[], (List.append_nil as).symm, rfl⟩

/-- Absolute paths are told apart by their names. -/
theorem absPath_injective {as bs : List Name} : absPath as = absPath bs ↔ as = bs := by
  have hroot : ∀ n : Name, ∀ ns, ['/'] ≠ slashed (n :: ns) := by
    intro n ns h
    obtain ⟨c, cs, hr, -⟩ := relPath_head n ns
    rw [slashed_cons, hr] at h
    exact nomatch (List.cons.inj h).2
  cases as with
  | nil =>
    cases bs with
    | nil => exact ⟨fun _ => rfl, fun _ => rfl⟩
    | cons b bs =>
      rw [absPath_nil, absPath_of_ne_nil (List.cons_ne_nil b bs)]
      exact ⟨fun h => absurd h (hroot b bs), fun h => nomatch h⟩
  | cons a as =>
    cases bs with
    | nil =>
      rw [absPath_nil, absPath_of_ne_nil (List.cons_ne_nil a as)]
      exact ⟨fun h => absurd h.symm (hroot a as), fun h => nomatch h⟩
    | cons b bs =>
      rw [absPath_of_ne_nil (List.cons_ne_nil a as), absPath_of_ne_nil (List.cons_ne_nil b bs)]
      exact slashed_injective

/-! ## The functions on paths made of names -/

/-- **A child is an extension.** -/
theorem gotPathIsChild_absPath {parent child : List Name} (h : child ≠ []) :
    gotPathIsChild (absPath child) (absPath parent) ↔ ∃ n rest, child = parent ++ n :: rest := by
  unfold gotPathIsChild
  cases parent with
  | nil =>
    rw [if_pos (Or.inr ((gotPathIsRootDir_absPath []).mpr rfl))]
    obtain ⟨n, rest, rfl⟩ := List.exists_cons_of_ne_nil h
    exact ⟨fun _ => ⟨n, rest, rfl⟩, fun _ => rfl⟩
  | cons p ps =>
    have hp := List.cons_ne_nil p ps
    rw [absPath_of_ne_nil h, absPath_of_ne_nil hp, if_neg]
    rotate_left
    · rintro (hlen | hroot)
      · exact absurd (List.length_eq_zero_iff.mp hlen) (List.cons_ne_nil _ _)
      · rw [← absPath_of_ne_nil hp] at hroot
        exact hp ((gotPathIsRootDir_absPath _).mp hroot)
    constructor
    · intro hc
      split at hc
      · exact absurd hc Bool.false_ne_true
      · next hpre =>
        obtain ⟨r, hr⟩ := not_not.mp hpre
        rw [← hr, List.getElem?_append_right (Nat.le_refl _), Nat.sub_self] at hc
        have hr0 : r[0]? = some '/' := of_decide_eq_true hc
        obtain ⟨r', rfl⟩ : ∃ r', r = '/' :: r' := by
          cases r with
          | nil => exact nomatch hr0
          | cons c r' => exact ⟨r', by rw [Option.some.inj hr0]⟩
        obtain ⟨cs, rfl, hcs⟩ := (slashed_append_eq_iff (Or.inr ⟨r', rfl⟩)).mp hr
        cases cs with
        | nil => exact nomatch hcs
        | cons n rest => exact ⟨n, rest, rfl⟩
    · rintro ⟨n, rest, rfl⟩
      rw [slashed_append, if_neg (not_not.mpr (List.prefix_append _ _)),
        List.getElem?_append_right (Nat.le_refl _), Nat.sub_self]
      rfl

/-- **Skipping an ancestor drops its names.** -/
theorem gotPathSkipCommonAncestor_absPath (parent : List Name) (n : Name) (rest : List Name) :
    gotPathSkipCommonAncestor (absPath parent) (absPath (parent ++ n :: rest))
      = .ok (relPath (n :: rest)) := by
  have hne : parent ++ n :: rest ≠ [] :=
    List.append_ne_nil_of_right_ne_nil _ (List.cons_ne_nil _ _)
  obtain ⟨c, cs, hr, hc⟩ := relPath_head n rest
  unfold gotPathSkipCommonAncestor
  rw [absPath_of_ne_nil hne, slashed_append, slashed_cons]
  cases parent with
  | nil =>
    rw [absPath_nil, if_neg (by rw [hr]; simp [slashed]), if_neg (by simp [slashed]),
      if_neg (fun h => h.1 rfl)]
    show Except.ok ((relPath (n :: rest)).dropWhile _) = _
    rw [dropWhile_relPath]
  | cons p ps =>
    rw [absPath_of_ne_nil (List.cons_ne_nil p ps), if_neg (by simp),
      if_neg (not_not.mpr (List.prefix_append _ _)), if_neg (fun h => h.2 (by simp)),
      List.drop_left, List.dropWhile_cons_of_pos (by simp), dropWhile_relPath]

/-- The first name of what is left. -/
theorem takeWhile_relPath (n : Name) (rest : List Name) :
    (relPath (n :: rest)).takeWhile (· ≠ '/') = n.val := by
  rw [relPath, List.takeWhile_append_of_pos (fun c hc => n.ne_slash hc)]
  cases rest with
  | nil => exact List.append_nil _
  | cons m rest =>
    rw [slashed_cons, List.takeWhile_cons_of_neg (by simp), List.append_nil]

/-- Whether there are more names. -/
theorem mem_relPath (n : Name) (rest : List Name) : '/' ∈ relPath (n :: rest) ↔ rest ≠ [] := by
  rw [relPath, List.mem_append, or_iff_right n.2.2]
  cases rest with
  | nil => exact ⟨fun h => absurd h List.not_mem_nil, fun h => absurd rfl h⟩
  | cons m rest => exact ⟨fun _ => List.cons_ne_nil m rest, fun _ => List.mem_cons_self⟩

/-- Joining a name to an absolute path appends it. -/
theorem joinPath_absPath (parent : List Name) (n : Name) :
    joinPath (absPath parent) n.val = absPath (parent ++ [n]) := by
  have hn : slashed [n] = '/' :: n.val := List.append_nil _
  unfold joinPath
  rw [absPath_of_ne_nil (List.append_ne_nil_of_right_ne_nil parent (List.cons_ne_nil n [])),
    slashed_append, hn]
  cases parent with
  | nil => rfl
  | cons p ps =>
    have hp := List.cons_ne_nil p ps
    rw [if_neg (fun h => hp ((gotPathIsRootDir_absPath _).mp h)), absPath_of_ne_nil hp,
      List.append_assoc]
    rfl

theorem reverse_absPath_append (parent : List Name) (n : Name) :
    (absPath (parent ++ [n])).reverse = n.val.reverse ++ '/' :: (slashed parent).reverse := by
  have hn : slashed [n] = '/' :: n.val := List.append_nil _
  rw [absPath_of_ne_nil (List.append_ne_nil_of_right_ne_nil parent (List.cons_ne_nil n [])),
    slashed_append, hn, List.reverse_append, List.reverse_cons, List.append_assoc]
  rfl

/-- There are no slashes at the end of such a path. -/
theorem dropWhile_reverse_slashed (names : List Name) :
    (slashed names).reverse.dropWhile (· = '/') = (slashed names).reverse := by
  rcases List.eq_nil_or_concat names with rfl | ⟨parent, n, rfl⟩
  · rfl
  · rw [List.concat_eq_append,
      ← absPath_of_ne_nil (List.append_ne_nil_of_right_ne_nil parent (List.cons_ne_nil n [])),
      reverse_absPath_append]
    have hne : n.val.reverse ≠ [] := fun h => n.2.1 (List.reverse_eq_nil_iff.mp h)
    obtain ⟨c, cs, hc⟩ := List.exists_cons_of_ne_nil hne
    have hmem : c ∈ n.val := List.mem_reverse.mp (hc ▸ List.mem_cons_self)
    rw [hc, List.cons_append, List.dropWhile_cons_of_neg]
    exact fun h => of_decide_eq_true (n.ne_slash hmem) (of_decide_eq_true h)

/-- The last component of an absolute path is its last name. -/
theorem basename_absPath (parent : List Name) (n : Name) :
    basename (absPath (parent ++ [n])) = n.val := by
  have hrev := reverse_absPath_append parent n
  have hdrop := dropWhile_reverse_slashed (parent ++ [n])
  have hne : absPath (parent ++ [n]) ≠ [] := by
    intro h
    rw [h] at hrev
    exact List.append_ne_nil_of_right_ne_nil _ (List.cons_ne_nil _ _) hrev.symm
  rw [← absPath_of_ne_nil (List.append_ne_nil_of_right_ne_nil parent (List.cons_ne_nil n []))]
    at hdrop
  unfold basename
  dsimp only
  rw [hdrop, if_neg hne, if_neg (fun h => hne (List.reverse_eq_nil_iff.mp h)), hrev,
    List.takeWhile_append_of_pos (fun c hc => n.ne_slash (List.mem_reverse.mp hc)),
    List.takeWhile_cons_of_neg (by simp), List.append_nil, List.reverse_reverse]

/-- The directory of an absolute path drops its last name. -/
theorem dirname_absPath (parent : List Name) (n : Name) :
    dirname (absPath (parent ++ [n])) = absPath parent := by
  have hrev := reverse_absPath_append parent n
  have hdrop := dropWhile_reverse_slashed (parent ++ [n])
  have hne : absPath (parent ++ [n]) ≠ [] := by
    intro h
    rw [h] at hrev
    exact List.append_ne_nil_of_right_ne_nil _ (List.cons_ne_nil _ _) hrev.symm
  rw [← absPath_of_ne_nil (List.append_ne_nil_of_right_ne_nil parent (List.cons_ne_nil n []))]
    at hdrop
  unfold dirname
  dsimp only
  rw [hdrop, if_neg hne, if_neg (fun h => hne (List.reverse_eq_nil_iff.mp h)), hrev,
    if_neg (not_not.mpr (List.mem_append_right _ List.mem_cons_self)),
    List.dropWhile_append_of_pos (fun c hc => n.ne_slash (List.mem_reverse.mp hc)),
      List.dropWhile_cons_of_neg (by simp),
    List.dropWhile_cons_of_pos (by simp), dropWhile_reverse_slashed, List.reverse_reverse]
  cases parent with
  | nil => rfl
  | cons p ps =>
    rw [absPath_of_ne_nil (List.cons_ne_nil p ps), if_neg]
    exact fun h => nomatch (List.reverse_eq_nil_iff.mp h)

/-- The directory of a path, which is never the current one. -/
theorem gotPathDirname_absPath (parent : List Name) (n : Name) :
    gotPathDirname (absPath (parent ++ [n]))
      = if PATH_MAX ≤ (absPath (parent ++ [n])).length then .error .noSpace
        else .ok (absPath parent) := by
  unfold gotPathDirname
  rw [dirname_absPath, if_neg (c := absPath parent = ['.'])]
  intro h
  cases parent with
  | nil => exact nomatch h
  | cons p ps =>
    rw [absPath_of_ne_nil (List.cons_ne_nil p ps), slashed_cons] at h
    exact nomatch h

end Got

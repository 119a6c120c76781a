import Got.Worktree.Commit

/-!
# Where a symlink leads

The target of a symlink is a string that a repository may choose freely. Here
is what it means: its **names**, those between its slashes, followed one after
the other from the directory of the symlink, or from the root if the target is
absolute, where `.` stays and `..` goes one level up. This is the lexical
normalisation of the target, `leadsTo`, and `got_canonpath` computes it
(`gotCanonpath_eq`): the loop goes through the characters, but each name moves
the path copied so far as `follow` moves the list of names.

Over this, `isBadSymlinkTarget_eq_false_iff` is what `is_bad_symlink_target`
lets pass, and `keepsInside_iff` says where this is less than it should be. The
test for the directory `.got` asks for a child of it, and the directory itself is
no child of its own; and in a work tree at the root directory, below which
everything is, the path of `.got` is put together with two slashes, which no
canonical path has.
-/

namespace Got

/-! ## The names of a path -/

/-- What stands between two slashes, if that is a name. -/
def toName? (s : Str) : Option Name :=
  if h : s ≠ [] ∧ '/' ∉ s then some ⟨s, h⟩ else none

/-- **The names of a path**, in whatever way it is written. -/
def pathNames (path : Str) : List Name := (path.splitOn '/').filterMap toName?

theorem toName?_val (n : Name) : toName? n.val = some n := dif_pos n.2

theorem pathNames_append (s rest : Str) :
    pathNames (s ++ '/' :: rest) = pathNames s ++ pathNames rest := by
  unfold pathNames
  rw [List.splitOn_append_cons_self, List.filterMap_append]

@[simp] theorem pathNames_slash (rest : Str) : pathNames ('/' :: rest) = pathNames rest :=
  pathNames_append [] rest

/-- The names of a name. -/
theorem pathNames_name (n : Name) : pathNames n.val = [n] := by
  have h : n.val.splitOn '/' = [n.val] := by
    rw [List.splitOn_eq_splitOnP]
    refine List.splitOnP_eq_singleton fun c hc => ?_
    exact beq_eq_false_iff_ne.mpr (of_decide_eq_true (n.ne_slash hc))
  unfold pathNames
  rw [h, List.filterMap_cons_some (toName?_val n)]
  rfl

/-- A name, and what comes behind it. -/
theorem pathNames_name_append (n : Name) {rest : Str} (hrest : rest = [] ∨ ∃ s, rest = '/' :: s) :
    pathNames (n.val ++ rest) = n :: pathNames rest := by
  obtain rfl | ⟨s, rfl⟩ := hrest
  · rw [List.append_nil, pathNames_name]
    rfl
  · rw [pathNames_append, pathNames_name, pathNames_slash]
    rfl

/-- **The names of a path that is made of names** are these. -/
theorem pathNames_slashed (names : List Name) : pathNames (slashed names) = names := by
  induction names with
  | nil => rfl
  | cons n names ih =>
    rw [slashed_cons, pathNames_slash]
    show pathNames (n.val ++ slashed names) = _
    rw [pathNames_name_append n (slashed_shape names), ih]

theorem pathNames_absPath (names : List Name) : pathNames (absPath names) = names := by
  cases names with
  | nil => rfl
  | cons n names =>
    rw [absPath_of_ne_nil (List.cons_ne_nil n names), pathNames_slashed]

/-! ## Following names -/

/-- One name further: `.` stays, and `..` goes one level up, except at the
root. -/
def followName (dir : List Name) (n : Name) : List Name :=
  if n.val = ['.'] then dir else if n.val = ['.', '.'] then dir.dropLast else dir ++ [n]

/-- **Where one comes by following names** from a directory. -/
def follow (dir names : List Name) : List Name := names.foldl followName dir

/-- **Where a symlink leads**, as its target reads. -/
def leadsTo (dir : List Name) (target : Str) : List Name :=
  if target.head? = some '/' then follow [] (pathNames target)
  else follow [] (dir ++ pathNames target)

/-! ## What `got_canonpath` computes -/

section Canon

variable {bufsize fuel : ℕ} {rest rev : Str}

/-- What is not behind a slash is copied. -/
theorem canonLoop_of_ne {c : Char} (hc : c ≠ '/') (hrev : rev.length < bufsize) :
    canonLoop bufsize (fuel + 1) (c :: rest) rev = canonLoop bufsize fuel rest (c :: rev) := by
  rw [canonLoop, if_neg (Nat.not_le.mpr hrev)]
  all_goals intros; exact absurd ‹c = '/'› hc

/-- Canonicalising copies what has no slash. -/
theorem canonLoop_copy {s : Str} (hs : '/' ∉ s) (hlen : rev.length + s.length ≤ bufsize) :
    canonLoop bufsize (s.length + fuel) (s ++ rest) rev
      = canonLoop bufsize fuel rest (s.reverse ++ rev) := by
  induction s generalizing rev with
  | nil => rw [List.length_nil, Nat.zero_add]; rfl
  | cons c s ih =>
    have hc : c ≠ '/' := fun h => hs (h ▸ List.mem_cons_self)
    rw [List.length_cons] at hlen
    rw [List.length_cons, Nat.add_right_comm, List.cons_append, canonLoop_of_ne hc (by omega),
      ih (fun h => hs (List.mem_cons_of_mem c h)) (by rw [List.length_cons]; omega),
      List.reverse_cons, List.append_assoc]
    rfl

/-- A slash before a name is copied, unless the name is one of those with a
meaning of their own. -/
theorem canonLoop_slash (n : Name) (hdot : n.val ≠ ['.']) (hdots : n.val ≠ ['.', '.'])
    (hrest : rest = [] ∨ ∃ s, rest = '/' :: s) (hrev : rev.length < bufsize) :
    canonLoop bufsize (fuel + 1) ('/' :: (n.val ++ rest)) rev
      = canonLoop bufsize fuel (n.val ++ rest) ('/' :: rev) := by
  -- none of the cases of the loop before the last is met
  have hname : ∀ s r : Str, '/' ∉ s → (r = [] ∨ ∃ t, r = '/' :: t) →
      n.val ++ rest = s ++ r → n.val = s := fun s r hs hr h =>
    (append_slash_inj n.2.2 hs hrest hr h).1
  rw [canonLoop, if_neg (Nat.not_le.mpr hrev)]
  · exact fun p _ h => n.2.1 (hname [] _ List.not_mem_nil (Or.inr ⟨p, rfl⟩) h)
  · exact fun _ h => n.2.1 (hname [] [] List.not_mem_nil (Or.inl rfl) h)
  · exact fun p _ h => hdot (hname ['.'] _ (by decide) (Or.inr ⟨p, rfl⟩) h)
  · exact fun _ h => hdot (hname ['.'] [] (by decide) (Or.inl rfl) h)
  · exact fun p _ h => hdots (hname ['.', '.'] _ (by decide) (Or.inr ⟨p, rfl⟩) h)
  · exact fun _ h => hdots (hname ['.', '.'] [] (by decide) (Or.inl rfl) h)

/-- **One level up**, in a path of names. -/
theorem canonUp_slashed (dirs : List Name) :
    canonUp (slashed dirs).reverse = (slashed dirs.dropLast).reverse := by
  cases dirs using List.reverseRecOn with
  | nil => rfl
  | append_singleton dirs n =>
    have hslash : (slashed [n]).reverse = n.val.reverse ++ ['/'] := by
      rw [slashed_cons, List.reverse_cons, relPath]
      show (n.val ++ []).reverse ++ _ = _
      rw [List.append_nil]
    have hname : n.val.reverse.dropWhile (· ≠ '/') = [] :=
      List.dropWhile_eq_nil_iff.mpr fun c hc => n.ne_slash (List.mem_reverse.mp hc)
    unfold canonUp
    rw [List.dropLast_concat, slashed_append, List.reverse_append, hslash, List.append_assoc,
      List.dropWhile_append, hname]
    rfl

/-- Behind a slash stands another one, the end, or a name. -/
theorem slash_or_name (s : Str) : (s = [] ∨ ∃ t, s = '/' :: t) ∨
    ∃ (n : Name) (rest : Str), s = n.val ++ rest ∧ (rest = [] ∨ ∃ t, rest = '/' :: t) := by
  induction s with
  | nil => exact Or.inl (Or.inl rfl)
  | cons c s ih =>
    by_cases hc : c = '/'
    · exact Or.inl (Or.inr ⟨s, by rw [hc]⟩)
    have hc' : '/' ∉ [c] := fun h => hc (List.mem_singleton.mp h).symm
    obtain hs | ⟨n, rest, rfl, hrest⟩ := ih
    · exact Or.inr ⟨⟨[c], List.cons_ne_nil c [], hc'⟩, s, rfl, hs⟩
    · refine Or.inr ⟨⟨c :: n.val, List.cons_ne_nil c _, fun h => ?_⟩, rest, rfl, hrest⟩
      obtain h | h := List.mem_cons.mp h
      · exact hc h.symm
      · exact n.2.2 h

/-- One level up is no longer than before. -/
theorem length_slashed_dropLast (dirs : List Name) :
    (slashed dirs.dropLast).length ≤ (slashed dirs).length := by
  rw [← List.length_reverse, ← canonUp_slashed]
  unfold canonUp
  rw [List.length_tail]
  have hdrop := (List.dropWhile_sublist (p := fun c : Char => decide (c ≠ '/'))
    (l := (slashed dirs).reverse)).length_le
  rw [List.length_reverse] at hdrop
  omega

/-- **What is left of the path, followed by its names.** The loop has copied the
path `dirs`, and stands at a slash or at the end. -/
theorem canonLoop_eq (path : Str) (dirs : List Name)
    (hpath : path = [] ∨ ∃ s, path = '/' :: s) (hfuel : path.length < fuel)
    (hlen : (slashed dirs).length + path.length < bufsize) :
    canonLoop bufsize fuel path (slashed dirs).reverse
      = .ok (slashed (follow dirs (pathNames path))) := by
  induction fuel using Nat.strong_induction_on generalizing path dirs with
  | h fuel ih =>
  obtain ⟨fuel, rfl⟩ := Nat.exists_eq_succ_of_ne_zero (Nat.ne_zero_of_lt hfuel)
  have hrev : ¬bufsize ≤ (slashed dirs).reverse.length := by
    rw [List.length_reverse]; omega
  obtain rfl | ⟨s, rfl⟩ := hpath
  · rw [canonLoop, if_neg hrev, List.reverse_reverse]
    rfl
  rw [List.length_cons] at hfuel hlen
  rw [pathNames_slash]
  obtain hs | ⟨n, rest, rfl, hrest⟩ := slash_or_name s
  · -- a slash that another one or the end follows is passed over
    have hih := ih fuel (Nat.lt_succ_self fuel) s dirs hs (by omega) (by omega)
    obtain rfl | ⟨t, rfl⟩ := hs
    · rw [canonLoop, if_neg hrev]
      exact hih
    · rw [canonLoop, if_neg hrev]
      exact hih
  rw [pathNames_name_append n hrest]
  rw [List.length_append] at hfuel hlen
  show _ = Except.ok (slashed (follow (followName dirs n) (pathNames rest)))
  unfold followName
  by_cases hdot : n.val = ['.']
  · rw [if_pos hdot]
    rw [hdot] at hfuel hlen ⊢
    have hih := ih fuel (Nat.lt_succ_self fuel) rest dirs hrest (by omega) (by omega)
    obtain rfl | ⟨t, rfl⟩ := hrest <;> rw [← hih] <;> exact if_neg hrev
  rw [if_neg hdot]
  by_cases hdots : n.val = ['.', '.']
  · rw [if_pos hdots]
    rw [hdots] at hfuel hlen ⊢
    have hup := length_slashed_dropLast dirs
    have hih := ih fuel (Nat.lt_succ_self fuel) rest dirs.dropLast hrest (by omega) (by omega)
    rw [← canonUp_slashed] at hih
    obtain rfl | ⟨t, rfl⟩ := hrest <;> rw [← hih] <;> exact if_neg hrev
  rw [if_neg hdots, canonLoop_slash n hdot hdots hrest (Nat.not_le.mp hrev)]
  -- the name is copied as it is
  obtain ⟨fuel', rfl⟩ := Nat.exists_eq_add_of_le (m := n.val.length) (n := fuel) (by omega)
  have hcopied : n.val.reverse ++ '/' :: (slashed dirs).reverse
      = (slashed (dirs ++ [n])).reverse := by
    rw [slashed_append, List.reverse_append]
    show _ = ('/' :: (n.val ++ [])).reverse ++ _
    rw [List.append_nil, List.reverse_cons, List.append_assoc]
    rfl
  have hcopiedLen : (slashed (dirs ++ [n])).length
      = (slashed dirs).length + 1 + n.val.length := by
    rw [← List.length_reverse, ← hcopied, List.length_append, List.length_cons,
      List.length_reverse, List.length_reverse]
    omega
  rw [canonLoop_copy n.2.2 (by rw [List.length_cons, List.length_reverse]; omega), hcopied]
  exact ih fuel' (by omega) rest (dirs ++ [n]) hrest (by omega) (by omega)

end Canon

/-- **The canonical path** of an absolute one is that of its names, followed
from the root. -/
theorem gotCanonpath_eq {input : Str} (habs : input.head? = some '/')
    (hlen : input.length < PATH_MAX) :
    gotCanonpath input = .ok (slashed (follow [] (pathNames input))) := by
  refine canonLoop_eq input [] ?_ (Nat.lt_succ_self _) ?_
  · exact Or.inr ⟨input.tail, (List.cons_head?_tail habs).symm⟩
  · exact (Nat.zero_add input.length).symm ▸ hlen

/-! ## What `is_bad_symlink_target` lets pass -/

section Target

variable {root dir : List Name} {n : Name} {target : Str} {targetLen : ℕ}

/-- The buffers for paths are large enough for a symlink `n` in the directory
`dir`. An absolute target does not need the path of the symlink. -/
def TargetFits (dir : List Name) (n : Name) (target : Str) : Prop :=
  target.head? = some '/' ∨
    ((absPath (dir ++ [n])).length < PATH_MAX ∧ (absPath dir ++ '/' :: target).length < PATH_MAX)

/-- **The path that is tested** is the one where the symlink leads. -/
theorem symlinkTargetPath_eq_ok_iff {canonpath : Str} (hlen : target.length < PATH_MAX) :
    symlinkTargetPath target (absPath (dir ++ [n])) = .ok canonpath
      ↔ TargetFits dir n target ∧ canonpath = slashed (leadsTo dir target) := by
  unfold symlinkTargetPath leadsTo TargetFits
  by_cases habs : target.head? = some '/'
  · rw [if_pos habs, if_pos habs, gotCanonpath_eq habs hlen, Except.ok.injEq]
    exact ⟨fun h => ⟨Or.inl habs, h.symm⟩, fun h => h.2.symm⟩
  rw [if_neg habs, if_neg habs, gotPathDirname_absPath]
  by_cases hpath : PATH_MAX ≤ (absPath (dir ++ [n])).length
  · rw [if_pos hpath, error_bind]
    refine ⟨fun h => (by cases h), fun h => ?_⟩
    exact absurd hpath (Nat.not_le.mpr (h.1.resolve_left habs).1)
  rw [if_neg hpath, ok_bind]
  by_cases hjoin : PATH_MAX ≤ (absPath dir ++ '/' :: target).length
  · rw [if_pos hjoin]
    refine ⟨fun h => (by cases h), fun h => ?_⟩
    exact absurd hjoin (Nat.not_le.mpr (h.1.resolve_left habs).2)
  have hhead : (absPath dir ++ '/' :: target).head? = some '/' := by
    cases dir with
    | nil => rfl
    | cons d dirs => rw [absPath_of_ne_nil (List.cons_ne_nil d dirs)]; rfl
  rw [if_neg hjoin, gotCanonpath_eq hhead (Nat.not_le.mp hjoin), pathNames_append,
    pathNames_absPath, Except.ok.injEq]
  exact ⟨fun h => ⟨Or.inr ⟨Nat.not_le.mp hpath, Nat.not_le.mp hjoin⟩, h.symm⟩,
    fun h => h.2.symm⟩

theorem isName_got : ['.', 'g', 'o', 't'] ≠ [] ∧ '/' ∉ ['.', 'g', 'o', 't'] := by decide

/-- The directory that holds the meta-data of a work tree. -/
def GOT_WORKTREE_GOT_DIR : Name := ⟨['.', 'g', 'o', 't'], isName_got⟩

/-- A child begins with its parent, unless that is the root. -/
theorem prefix_of_gotPathIsChild {child parent : Str} (hne : parent ≠ [])
    (hroot : ¬gotPathIsRootDir parent) (h : gotPathIsChild child parent) : parent <+: child := by
  unfold gotPathIsChild at h
  rw [if_neg (not_or.mpr ⟨fun hlen => hne (List.length_eq_zero_iff.mp hlen), hroot⟩)] at h
  by_contra hpre
  rw [if_pos hpre] at h
  exact Bool.false_ne_true h

/-- Which canonical paths pass as children of the work tree. -/
theorem gotPathIsChild_root (names : List Name) :
    gotPathIsChild (slashed names) (absPath root)
      ↔ root = [] ∨ ∃ m rest, names = root ++ m :: rest := by
  by_cases hroot : root = []
  · subst hroot
    refine ⟨fun _ => Or.inl rfl, fun _ => ?_⟩
    exact if_pos (Or.inr ((gotPathIsRootDir_absPath []).mpr rfl))
  by_cases hnames : names = []
  · -- the canonical path of the root has no characters at all
    subst hnames
    constructor
    · intro h
      obtain ⟨r, rs, rfl⟩ := List.exists_cons_of_ne_nil hroot
      have hne : absPath (r :: rs) ≠ [] := by
        rw [absPath_of_ne_nil hroot]
        exact List.cons_ne_nil _ _
      exact absurd (List.prefix_nil.mp (prefix_of_gotPathIsChild hne
        (fun h => hroot ((gotPathIsRootDir_absPath _).mp h)) h)) hne
    · rintro (h | ⟨m, rest, h⟩)
      · exact absurd h hroot
      · exact absurd h.symm (List.append_ne_nil_of_right_ne_nil _ (List.cons_ne_nil m rest))
  · rw [← absPath_of_ne_nil hnames, gotPathIsChild_absPath hnames]
    exact ⟨Or.inr, fun h => h.resolve_left hroot⟩

/-- Which ones pass as children of its directory `.got`. -/
theorem gotPathIsChild_got (names : List Name) :
    gotPathIsChild (slashed names) (absPath root ++ ['/', '.', 'g', 'o', 't'])
      ↔ root ≠ [] ∧ ∃ m rest, names = root ++ GOT_WORKTREE_GOT_DIR :: m :: rest := by
  by_cases hroot : root = []
  · -- no canonical path begins with two slashes
    subst hroot
    refine ⟨fun h => ?_, fun h => absurd rfl h.1⟩
    have hpre := prefix_of_gotPathIsChild (List.cons_ne_nil _ _) (by decide) h
    cases names with
    | nil => exact absurd (List.prefix_nil.mp hpre) (List.cons_ne_nil _ _)
    | cons m rest =>
      obtain ⟨c, cs, hm, hc⟩ := m.head_ne
      rw [slashed_cons, relPath, hm] at hpre
      have hslash := (List.cons_prefix_cons.mp (List.cons_prefix_cons.mp hpre).2).1
      exact absurd hslash.symm hc
  · have hgot : absPath root ++ ['/', '.', 'g', 'o', 't']
        = absPath (root ++ [GOT_WORKTREE_GOT_DIR]) := by
      rw [absPath_of_ne_nil hroot,
        absPath_of_ne_nil (List.append_ne_nil_of_right_ne_nil _ (List.cons_ne_nil _ _)),
        slashed_append]
      rfl
    rw [hgot, gotPathIsChild_root]
    simp only [List.append_assoc, List.singleton_append]
    exact ⟨fun h => ⟨hroot, h.resolve_left (by simp)⟩, fun h => Or.inr h.2⟩

/-- **Which symlinks are let pass.** -/
theorem isBadSymlinkTarget_eq_false_iff (hlen : target.length ≤ targetLen) :
    isBadSymlinkTarget target targetLen (absPath (dir ++ [n])) (absPath root) = .ok false
      ↔ targetLen < PATH_MAX ∧ TargetFits dir n target
        ∧ (root = [] ∨ ∃ m rest, leadsTo dir target = root ++ m :: rest)
        ∧ ¬(root ≠ [] ∧ ∃ m rest,
          leadsTo dir target = root ++ GOT_WORKTREE_GOT_DIR :: m :: rest) := by
  unfold isBadSymlinkTarget
  by_cases hlong : PATH_MAX ≤ targetLen
  · rw [if_pos hlong]
    exact ⟨fun h => (by cases h), fun h => absurd hlong (Nat.not_le.mpr h.1)⟩
  rw [if_neg hlong, bind_eq_ok_iff]
  have hshort := Nat.not_le.mp hlong
  simp only [symlinkTargetPath_eq_ok_iff (Nat.lt_of_le_of_lt hlen hshort)]
  constructor
  · rintro ⟨canonpath, ⟨hfits, rfl⟩, h⟩
    have hbad := of_decide_eq_false (Except.ok.inj h)
    rw [gotPathIsChild_root, gotPathIsChild_got, not_or, not_not] at hbad
    exact ⟨hshort, hfits, hbad⟩
  · rintro ⟨-, hfits, hbad⟩
    refine ⟨_, ⟨hfits, rfl⟩, congrArg Except.ok (decide_eq_false ?_)⟩
    rw [gotPathIsChild_root, gotPathIsChild_got, not_or, not_not]
    exact hbad

/-- **A symlink that stays inside** the work tree `root`: it leads below `root`,
and neither to the directory `.got` nor to what is below that. -/
def StaysInside (root names : List Name) : Prop :=
  ∃ m rest, m ≠ GOT_WORKTREE_GOT_DIR ∧ names = root ++ m :: rest

/-- **The symlinks that are let pass by mistake**: those to the directory
`.got` itself; and, in a work tree at the root directory, those to the root,
to `.got`, and to what is below it. -/
def Slips (root names : List Name) : Prop :=
  if root = [] then names = [] ∨ [GOT_WORKTREE_GOT_DIR] <+: names
  else names = root ++ [GOT_WORKTREE_GOT_DIR]

/-- What is let pass stays inside or slips. -/
theorem staysInside_or_slips (names : List Name) :
    ((root = [] ∨ ∃ m rest, names = root ++ m :: rest)
        ∧ ¬(root ≠ [] ∧ ∃ m rest, names = root ++ GOT_WORKTREE_GOT_DIR :: m :: rest))
      ↔ StaysInside root names ∨ Slips root names := by
  unfold StaysInside Slips
  by_cases hroot : root = []
  · subst hroot
    rw [if_pos rfl]
    refine ⟨fun _ => ?_, fun _ => ⟨Or.inl rfl, fun h => h.1 rfl⟩⟩
    cases names with
    | nil => exact Or.inr (Or.inl rfl)
    | cons m rest =>
      by_cases hm : m = GOT_WORKTREE_GOT_DIR
      · exact Or.inr (Or.inr ⟨rest, by rw [hm]; rfl⟩)
      · exact Or.inl ⟨m, rest, hm, rfl⟩
  · rw [if_neg hroot]
    constructor
    · rintro ⟨hchild, hgot⟩
      obtain ⟨m, rest, rfl⟩ := hchild.resolve_left hroot
      by_cases hm : m = GOT_WORKTREE_GOT_DIR
      · cases rest with
        | nil => exact Or.inr (by rw [hm])
        | cons m' rest => exact absurd ⟨hroot, m', rest, by rw [hm]⟩ hgot
      · exact Or.inl ⟨m, rest, hm, rfl⟩
    · rintro (⟨m, rest, hm, rfl⟩ | rfl)
      · refine ⟨Or.inr ⟨m, rest, rfl⟩, fun h => ?_⟩
        obtain ⟨m', rest', h⟩ := h.2
        exact hm (List.cons.inj (List.append_cancel_left h)).1
      · refine ⟨Or.inr ⟨_, [], rfl⟩, fun h => ?_⟩
        obtain ⟨m', rest', h⟩ := h.2
        exact absurd (List.cons.inj (List.append_cancel_left h)).2 (List.cons_ne_nil m' rest').symm

/-- What slips does not stay inside. -/
theorem Slips.not_staysInside {names : List Name} (h : Slips root names) :
    ¬StaysInside root names := by
  rintro ⟨m, rest, hm, rfl⟩
  unfold Slips at h
  by_cases hroot : root = []
  · subst hroot
    rw [if_pos rfl] at h
    obtain h | h := h
    · exact absurd h (List.cons_ne_nil m rest)
    · exact hm (List.cons_prefix_cons.mp h).1.symm
  · rw [if_neg hroot] at h
    exact hm (List.cons.inj (List.append_cancel_left h)).1

end Target

/-- **When a symlink that is not bad stays inside the work tree**: always, except
when its target fits into the buffers and leads to one of the places that are
let pass by mistake. -/
theorem staysInside_iff (root rel : List Name) (n : Name) (target : Str) (targetLen : ℕ)
    (hlen : target.length ≤ targetLen) :
    (isBadSymlinkTarget target targetLen (absPath (root ++ rel ++ [n])) (absPath root)
        = .ok false → StaysInside root (leadsTo (root ++ rel) target))
      ↔ ¬(targetLen < PATH_MAX ∧ TargetFits (root ++ rel) n target
        ∧ Slips root (leadsTo (root ++ rel) target)) := by
  rw [isBadSymlinkTarget_eq_false_iff hlen, staysInside_or_slips]
  have hslips := @Slips.not_staysInside root (leadsTo (root ++ rel) target)
  constructor
  · rintro h ⟨hshort, hfits, hslip⟩
    exact hslips hslip (h ⟨hshort, hfits, Or.inr hslip⟩)
  · rintro h ⟨hshort, hfits, hstay⟩
    exact hstay.resolve_right fun hslip => h ⟨hshort, hfits, hslip⟩

/-- A symlink `b` to `a`, which is beside it, in the work tree `/f`. -/
theorem staysInside_beside :
    ['a'].length ≤ 1 ∧
      ((isBadSymlinkTarget ['a'] 1 (absPath ([⟨['f'], isName_f⟩] ++ [] ++ [⟨['b'], isName_b⟩]))
          (absPath [⟨['f'], isName_f⟩]) = .ok false →
        StaysInside [⟨['f'], isName_f⟩] (leadsTo ([⟨['f'], isName_f⟩] ++ []) ['a'])) ↔
      ¬(1 < PATH_MAX ∧ TargetFits ([⟨['f'], isName_f⟩] ++ []) ⟨['b'], isName_b⟩ ['a']
        ∧ Slips [⟨['f'], isName_f⟩] (leadsTo ([⟨['f'], isName_f⟩] ++ []) ['a']))) :=
  ⟨Nat.le_refl 1, staysInside_iff [⟨['f'], isName_f⟩] [] ⟨['b'], isName_b⟩ ['a'] 1 (Nat.le_refl 1)⟩

/-- **The directory `.got` is let pass.** A symlink `b` to `.got`, in the work
tree `/f`, is not bad. -/
theorem not_staysInside_got :
    isBadSymlinkTarget ['.', 'g', 'o', 't'] 4
        (absPath [⟨['f'], isName_f⟩, ⟨['b'], isName_b⟩]) (absPath [⟨['f'], isName_f⟩]) = .ok false
      ∧ ¬StaysInside [⟨['f'], isName_f⟩] (leadsTo [⟨['f'], isName_f⟩] ['.', 'g', 'o', 't']) := by
  refine ⟨rfl, Slips.not_staysInside ?_⟩
  show leadsTo [⟨['f'], isName_f⟩] ['.', 'g', 'o', 't'] = _
  decide

end Got

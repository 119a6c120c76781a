import Got.CString

/-!
# The address of a repository

An address is either a URI with a protocol, or has a host and a path with a colon between them as
they are given to `scp(1)`. It is cut at the first place where it can be: behind the protocol, at
the first slash behind that, and the host at its first colon. The name of the repository is the last
part of the path.

What is checked is the path, which must have a slash and must not end with one. None of the other
parts has to be there. So an address is split as it should be unless one of them is missing where
the address is cut, or nothing but a suffix is left of the name (`parsesUri_iff`).
-/

namespace Got

variable {s sub a b uri proto host path : Bytes} {port : Option Bytes}

/-! ## Strings -/

/-- `strstr(3)`: what is before the first occurrence, and from there on. -/
def strstr (sub : Bytes) : Bytes → Option (Bytes × Bytes)
  | [] => if sub = [] then some ([], []) else none
  | c :: s =>
    if sub.isPrefixOf (c :: s) then some ([], c :: s)
    else (strstr sub s).map fun found => (c :: found.1, found.2)

/-- `strchr(3)`: what is before the first occurrence, and behind it. -/
def strchr (s : Bytes) (c : UInt8) : Option (Bytes × Bytes) :=
  match s.dropWhile (· ≠ c) with
  | [] => none
  | _ :: behind => some (s.takeWhile (· ≠ c), behind)

/-- `hassuffix` -/
def hassuffix (base suf : Bytes) : Bool := suf.isSuffixOf base

/-- `got_path_strip_trailing_slashes` -/
def gotPathStripTrailingSlashes (path : Bytes) : Bytes :=
  (path.reverse.dropWhile (· = 0x2f)).reverse

/-- Slashes in front of another one are skipped. -/
def skipLeadingSlashes : Bytes → Bytes
  | [] => []
  | c :: p => if c = 0x2f ∧ p.head? = some 0x2f then skipLeadingSlashes p else c :: p

/-! ## Parsing -/

/-- **What is found in an address**, or `NULL`. -/
structure UriParts where
  proto : Option Bytes := none
  host : Option Bytes := none
  port : Option Bytes := none
  serverPath : Option Bytes := none
  repoName : Option Bytes := none
  deriving DecidableEq

/-- What separates the protocol of a URI from the rest. -/
def schemeEnd : Bytes := text "://"

/-- The host, the port and the path of an address, which begins behind the protocol or has none. -/
def parseHost (uri : Bytes) : UriParts × Except GotErr Bytes :=
  match strstr schemeEnd uri with
  | none =>
    let parts : UriParts := { proto := some (text "ssh") }
    match strchr uri 0x3a with
    | none => (parts, .error .parseUri)
    | some (host, path) =>
      -- no slashes are allowed before the first colon
      if 0x2f ∈ host then (parts, .error .parseUri)
      else ({ parts with host := some host }, .ok path)
  | some (proto, found) =>
    let parts : UriParts := { proto := some proto }
    match strchr (found.drop 3) 0x2f with
    | none => (parts, .error .parseUri)
    | some (authority, behind) =>
      if behind = [] then (parts, .error .parseUri)
      else match strchr authority 0x3a with
        | some (host, port) =>
          ({ parts with host := some host, port := some port }, .ok (0x2f :: behind))
        | none => ({ parts with host := some authority }, .ok (0x2f :: behind))

/-- The path and the name of the repository. -/
def parsePath (parts : UriParts) (path : Bytes) : UriParts × Except GotErr Unit :=
  let p := skipLeadingSlashes path
  let parts := { parts with serverPath := some (gotPathStripTrailingSlashes p) }
  match strrchr p 0x2f with
  | none => (parts, .error .parseUri)
  | some (_, name) =>
    if name = [] then (parts, .error .parseUri)
    else
      let n := if hassuffix name (text ".git") then name.length - 4 else name.length
      ({ parts with repoName := some (name.take n) }, .ok ())

/-- The parts of an address, as far as it is parsed. -/
def parseParts (uri : Bytes) : UriParts × Except GotErr Unit :=
  match parseHost uri with
  | (parts, .error e) => (parts, .error e)
  | (parts, .ok path) => parsePath parts path

/-- **`got_fetch_parse_uri`**. Nothing is left of the parts if there is an error. -/
def gotFetchParseUri (uri : Bytes) : UriParts × Except GotErr Unit :=
  match parseParts uri with
  | (_, .error e) => ({}, .error e)
  | (parts, .ok ()) => (parts, .ok ())

/-! ## Addresses -/

/-- The port of an address, with its colon. -/
def portText : Option Bytes → Bytes
  | some port => 0x3a :: port
  | none => []

/-- **Where an address is cut**: behind the protocol, which ends at the first `://`, or at the first
colon if there is no protocol. -/
inductive IsCut (uri : Bytes) : Bytes → Bytes → Option Bytes → Bytes → Prop
  | url {proto host path : Bytes} {port : Option Bytes}
      (hscheme : strstr schemeEnd uri
        = some (proto, schemeEnd ++ (host ++ (portText port ++ 0x2f :: path))))
      (hhost : 0x2f ∉ host ∧ 0x3a ∉ host) (hport : ∀ q, port = some q → 0x2f ∉ q) :
      IsCut uri proto host port (0x2f :: path)
  | scp {host path : Bytes} (hscheme : strstr schemeEnd uri = none)
      (hhost : 0x2f ∉ host ∧ 0x3a ∉ host) (huri : uri = host ++ 0x3a :: path) :
      IsCut uri (text "ssh") host none path

/-- **An address**: it can be cut, and none of its parts is empty. A port can be left out. -/
def IsUri (uri : Bytes) : Prop :=
  ∃ proto host port path, IsCut uri proto host port path ∧ proto ≠ [] ∧ host ≠ [] ∧ port ≠ some []
    ∧ path ≠ []

/-- The last part of a path, without slashes behind it and without `.git`. -/
def lastComponent (path : Bytes) : Bytes :=
  let name := ((gotPathStripTrailingSlashes path).reverse.takeWhile (· ≠ 0x2f)).reverse
  if text ".git" <:+ name then name.take (name.length - 4) else name

/-- **An address is split without loss**: the parts are put together again, with a path that has the
slashes in front of it which are skipped. -/
structure SplitsUri (uri proto host : Bytes) (port : Option Bytes) (serverPath repoName : Bytes) :
    Prop where
  recombines : ∃ path, skipLeadingSlashes path = serverPath
    ∧ (uri = proto ++ (schemeEnd ++ (host ++ (portText port ++ path)))
      ∨ proto = text "ssh" ∧ port = none ∧ uri = host ++ 0x3a :: path)
  host_ne : host ≠ []
  path_ne : serverPath ≠ []
  name_ne : repoName ≠ []
  name_eq : repoName = lastComponent serverPath

/-- **An address is parsed as it should be**: it is split without loss, or refused. -/
structure ParsesUri (uri : Bytes) : Prop where
  splits : (gotFetchParseUri uri).2 = .ok () → ∃ proto host port serverPath repoName,
    (gotFetchParseUri uri).1 = ⟨some proto, some host, port, some serverPath, some repoName⟩
      ∧ SplitsUri uri proto host port serverPath repoName
  refuses : ¬IsUri uri → (gotFetchParseUri uri).2 ≠ .ok ()
  clears : (gotFetchParseUri uri).2 ≠ .ok () → (gotFetchParseUri uri).1 = {}

/-! ## Cutting -/

/-- `strstr` splits at the first occurrence, so that what follows begins with it. -/
theorem strstr_eq_some (h : strstr sub s = some (a, b)) : s = a ++ b ∧ sub <+: b := by
  induction s generalizing a with
  | nil =>
    rw [strstr] at h
    split at h
    · next hsub =>
      cases h
      exact ⟨rfl, hsub ▸ List.nil_prefix⟩
    · cases h
  | cons c s ih =>
    rw [strstr] at h
    split at h
    · next hpre =>
      cases h
      exact ⟨rfl, List.isPrefixOf_iff_prefix.mp hpre⟩
    · obtain ⟨found, hfound, hab⟩ := Option.map_eq_some_iff.mp h
      cases hab
      obtain ⟨hs, hpre⟩ := ih hfound
      exact ⟨congrArg (c :: ·) hs, hpre⟩

theorem strchr_append {c : UInt8} (h : c ∉ a) (b : Bytes) :
    strchr (a ++ c :: b) c = some (a, b) := by
  have ha : ∀ x ∈ a, (decide (x ≠ c)) = true := fun x hx => decide_eq_true fun heq => h (heq ▸ hx)
  rw [strchr, List.dropWhile_append_of_pos ha, List.takeWhile_append_of_pos ha,
    List.dropWhile_cons_of_neg (by simp), List.takeWhile_cons_of_neg (by simp), List.append_nil]

theorem strchr_eq_none {c : UInt8} (h : c ∉ s) : strchr s c = none := by
  have hs : s.dropWhile (· ≠ c) = [] :=
    List.dropWhile_eq_nil_iff.mpr fun x hx => decide_eq_true fun heq => h (heq ▸ hx)
  rw [strchr, hs]

/-- A string has a first occurrence of a character, or none. -/
theorem exists_strchr (s : Bytes) (c : UInt8) :
    c ∉ s ∧ strchr s c = none ∨ ∃ before after, s = before ++ c :: after ∧ c ∉ before := by
  by_cases h : c ∈ s
  · exact Or.inr (List.eq_append_cons_of_mem h)
  · exact Or.inl ⟨h, strchr_eq_none h⟩

theorem length_schemeEnd : schemeEnd.length = 3 := rfl

theorem slash_not_mem_portText (h : ∀ q, port = some q → 0x2f ∉ q) : 0x2f ∉ portText port := by
  cases port with
  | none => exact List.not_mem_nil
  | some q => exact List.not_mem_cons_of_ne_of_not_mem (by decide) (h q rfl)

/-- **A host is parsed** where the address is cut, unless the path is nothing but a slash. -/
theorem parseHost_of_cut (h : IsCut uri proto host port path) :
    parseHost uri = ({ proto := some proto, host := some host, port := port }, .ok path)
      ∨ path = [0x2f] ∧ ∃ parts, parseHost uri = (parts, .error .parseUri) := by
  cases h with
  | @url proto host path port hscheme hhost hport =>
    have hslash : 0x2f ∉ host ++ portText port := by
      rw [List.mem_append, not_or]
      exact ⟨hhost.1, slash_not_mem_portText hport⟩
    rw [parseHost, hscheme]
    dsimp only
    rw [← length_schemeEnd, List.drop_left, ← List.append_assoc, strchr_append hslash]
    dsimp only
    by_cases hpath : path = []
    · rw [if_pos hpath, hpath]
      exact Or.inr ⟨rfl, _, rfl⟩
    · left
      rw [if_neg hpath]
      cases port with
      | some q =>
        rw [portText, strchr_append hhost.2]
      | none =>
        rw [portText, List.append_nil, strchr_eq_none hhost.2]
  | scp hscheme hhost huri =>
    left
    rw [parseHost, hscheme, huri]
    dsimp only
    rw [strchr_append hhost.2]
    dsimp only
    rw [if_neg hhost.1]

/-- **An address that cannot be cut** is refused. -/
theorem exists_cut_or_error (uri : Bytes) : (∃ proto host port path, IsCut uri proto host port path)
    ∨ ∃ parts, parseHost uri = (parts, .error .parseUri) := by
  unfold parseHost
  cases hscheme : strstr schemeEnd uri with
  | none =>
    dsimp only
    rcases exists_strchr uri 0x3a with ⟨-, hnone⟩ | ⟨host, path, huri, hcolon⟩
    · rw [hnone]
      exact Or.inr ⟨_, rfl⟩
    · by_cases hslash : 0x2f ∈ host
      · rw [huri, strchr_append hcolon]
        dsimp only
        rw [if_pos hslash]
        exact Or.inr ⟨_, rfl⟩
      · exact Or.inl ⟨_, _, _, _, .scp hscheme ⟨hslash, hcolon⟩ huri⟩
  | some found =>
    obtain ⟨proto, found⟩ := found
    obtain ⟨-, rest, rfl⟩ := strstr_eq_some hscheme
    dsimp only
    rw [← length_schemeEnd, List.drop_left]
    rcases exists_strchr rest 0x2f with ⟨-, hnone⟩ | ⟨authority, path, rfl, hslash⟩
    · rw [hnone]
      exact Or.inr ⟨_, rfl⟩
    left
    rcases exists_strchr authority 0x3a with ⟨hcolon, -⟩ | ⟨host, q, rfl, hcolon⟩
    · refine ⟨proto, authority, none, 0x2f :: path, .url hscheme ⟨hslash, hcolon⟩ fun q hq => ?_⟩
      cases hq
    · rw [List.mem_append, not_or] at hslash
      refine ⟨proto, host, some q, 0x2f :: path, .url ?_ ⟨hslash.1, hcolon⟩ fun q' hq => ?_⟩
      · rw [hscheme, List.append_assoc]
        rfl
      · rw [← Option.some.inj hq]
        exact fun hmem => hslash.2 (List.mem_cons_of_mem _ hmem)

/-- The parts are put together again. -/
theorem IsCut.recombines (h : IsCut uri proto host port path) :
    uri = proto ++ (schemeEnd ++ (host ++ (portText port ++ path)))
      ∨ proto = text "ssh" ∧ port = none ∧ uri = host ++ 0x3a :: path := by
  cases h with
  | url hscheme hhost hport => exact Or.inl (strstr_eq_some hscheme).1
  | scp hscheme hhost huri => exact Or.inr ⟨rfl, rfl, huri⟩

/-! ## Paths -/

variable {dir name : Bytes}

/-- Slashes are skipped only as far as the last part. -/
theorem exists_skipLeadingSlashes (h : 0x2f ∉ name) (dir : Bytes) :
    ∃ dir', skipLeadingSlashes (dir ++ 0x2f :: name) = dir' ++ 0x2f :: name := by
  induction dir with
  | nil =>
    refine ⟨[], ?_⟩
    rw [List.nil_append, skipLeadingSlashes, if_neg]
    · rintro ⟨-, hhead⟩
      exact h (List.mem_of_mem_head? hhead)
  | cons c dir ih =>
    rw [List.cons_append, skipLeadingSlashes]
    split
    · exact ih
    · exact ⟨c :: dir, rfl⟩

/-- A path without a slash has no leading ones. -/
theorem skipLeadingSlashes_of_not_mem (h : 0x2f ∉ path) : skipLeadingSlashes path = path := by
  cases path with
  | nil => rfl
  | cons c path =>
    rw [skipLeadingSlashes, if_neg]
    rintro ⟨rfl, -⟩
    exact h List.mem_cons_self

/-- Nothing is stripped behind a last component that has no slash. -/
theorem gotPathStripTrailingSlashes_eq (hname : 0x2f ∉ name) (hne : name ≠ []) (dir : Bytes) :
    gotPathStripTrailingSlashes (dir ++ 0x2f :: name) = dir ++ 0x2f :: name := by
  obtain ⟨init, c, rfl⟩ := List.eq_nil_or_concat' name |>.resolve_left hne
  have hc : ¬decide (c = 0x2f) = true := fun heq =>
    hname (List.mem_append_right _ (of_decide_eq_true heq ▸ List.mem_cons_self))
  have hsplit : dir ++ 0x2f :: (init ++ [c]) = (dir ++ 0x2f :: init) ++ [c] := by
    rw [List.append_assoc]
    rfl
  rw [gotPathStripTrailingSlashes, hsplit, List.reverse_append, List.reverse_singleton,
    List.singleton_append, List.dropWhile_cons_of_neg (p := fun x => decide (x = 0x2f)) hc,
    List.reverse_cons, List.reverse_reverse]

/-- The last component of a path, without the `.git` it may end in. -/
theorem lastComponent_eq (hname : 0x2f ∉ name) (hne : name ≠ []) (dir : Bytes) :
    lastComponent (dir ++ 0x2f :: name)
      = if text ".git" <:+ name then name.take (name.length - 4) else name := by
  have hall : ∀ a ∈ name.reverse, decide (a ≠ 0x2f) = true := fun a ha =>
    decide_eq_true fun heq => hname (heq ▸ List.mem_reverse.mp ha)
  rw [lastComponent, gotPathStripTrailingSlashes_eq hname hne, List.reverse_append,
    List.reverse_cons,
    List.append_assoc, List.takeWhile_append_of_pos hall, List.singleton_append,
    List.takeWhile_cons_of_neg (by decide), List.append_nil, List.reverse_reverse]

/-- **A name without its suffix** is empty if it is the suffix. -/
theorem withoutGit_eq_nil_iff (hne : name ≠ []) :
    (if text ".git" <:+ name then name.take (name.length - 4) else name) = []
      ↔ name = text ".git" := by
  split
  · next hsuffix =>
    rw [List.take_eq_nil_iff, or_iff_left hne]
    have hlen : (text ".git").length = 4 := rfl
    constructor
    · intro h
      exact (hsuffix.eq_of_length_le (by omega)).symm
    · rintro rfl
      rfl
  · next hsuffix =>
    exact iff_of_false hne fun heq => hsuffix (heq ▸ List.suffix_refl _)

/-- **A path with a last part** is parsed. -/
theorem parsePath_eq (parts : UriParts) (hname : 0x2f ∉ name) (hne : name ≠ []) (dir : Bytes) :
    parsePath parts (dir ++ 0x2f :: name)
      = ({ parts with
          serverPath := some (skipLeadingSlashes (dir ++ 0x2f :: name))
          repoName := some (lastComponent (skipLeadingSlashes (dir ++ 0x2f :: name))) },
            .ok ()) := by
  obtain ⟨dir', hskip⟩ := exists_skipLeadingSlashes hname dir
  rw [parsePath, hskip]
  dsimp only
  rw [strrchr_append hname, gotPathStripTrailingSlashes_eq hname hne, lastComponent_eq hname hne]
  dsimp only
  rw [if_neg hne, hassuffix]
  by_cases hsuffix : text ".git" <:+ name
  · rw [if_pos hsuffix, if_pos (List.isSuffixOf_iff_suffix.mpr hsuffix)]
  · rw [if_neg hsuffix, if_neg (fun h => hsuffix (List.isSuffixOf_iff_suffix.mp h)),
      List.take_length]

/-- **A path without a last part** is refused. -/
theorem parsePath_error (parts : UriParts)
    (h : ∀ dir name, path = dir ++ 0x2f :: name → 0x2f ∉ name → name = []) :
    ∃ parts', parsePath parts path = (parts', .error .parseUri) := by
  rcases exists_strrchr path 0x2f with ⟨hslash, hnone⟩ | ⟨dir, name, hpath, hname⟩
  · rw [parsePath, skipLeadingSlashes_of_not_mem hslash]
    dsimp only
    rw [hnone]
    exact ⟨_, rfl⟩
  · obtain rfl := h dir name hpath hname
    obtain ⟨dir', hskip⟩ := exists_skipLeadingSlashes hname dir
    rw [parsePath, hpath, hskip]
    dsimp only
    rw [strrchr_append hname]
    exact ⟨_, rfl⟩

/-! ## Addresses that are parsed -/

/-- **An address is accepted** where it is cut before a path with a last part. -/
theorem gotFetchParseUri_of_cut (h : IsCut uri proto host port (dir ++ 0x2f :: name))
    (hname : 0x2f ∉ name) (hne : name ≠ []) :
    gotFetchParseUri uri = (⟨some proto, some host, port,
      some (skipLeadingSlashes (dir ++ 0x2f :: name)),
      some (lastComponent (skipLeadingSlashes (dir ++ 0x2f :: name)))⟩, .ok ()) := by
  rcases parseHost_of_cut h with hhost | ⟨hpath, -⟩
  · rw [gotFetchParseUri, parseParts, hhost]
    dsimp only
    rw [parsePath_eq _ hname hne]
  · have hlen := congrArg List.length hpath
    rw [List.length_append, List.length_cons, List.length_singleton] at hlen
    exact absurd (List.eq_nil_of_length_eq_zero (by omega)) hne

/-- **Any other address is refused**, and nothing is left of its parts. -/
theorem gotFetchParseUri_error
    (h : ∀ proto host port dir name, IsCut uri proto host port (dir ++ 0x2f :: name) → 0x2f ∉ name →
      name = []) :
    gotFetchParseUri uri = ({}, .error .parseUri) := by
  rcases exists_cut_or_error uri with ⟨proto, host, port, path, hcut⟩ | ⟨parts, hparts⟩
  · rcases parseHost_of_cut hcut with hhost | ⟨-, parts, hparts⟩
    · obtain ⟨parts', hparts'⟩ := parsePath_error
        ({ proto := some proto, host := some host, port := port } : UriParts)
        fun dir name hpath hname =>
          h proto host port dir name (hpath ▸ hcut) hname
      rw [gotFetchParseUri, parseParts, hhost]
      dsimp only
      rw [hparts']
    · rw [gotFetchParseUri, parseParts, hparts]
  · rw [gotFetchParseUri, parseParts, hparts]

/-- **An address is cut in one way.** -/
theorem IsCut.unique {proto' host' path' : Bytes} {port' : Option Bytes}
    (h : IsCut uri proto host port path) (h' : IsCut uri proto' host' port' path') :
    proto = proto' ∧ host = host' ∧ port = port' ∧ path = path' := by
  cases h with
  | @url proto host path port hscheme hhost hport =>
    cases h' with
    | scp hscheme' => rw [hscheme] at hscheme'; cases hscheme'
    | @url proto' host' path' port' hscheme' hhost' hport' =>
      obtain ⟨rfl, hrest⟩ := Prod.mk.inj (Option.some.inj (hscheme.symm.trans hscheme'))
      have hrest := List.append_cancel_left hrest
      have hcut : ∀ {host path : Bytes} {port : Option Bytes}, 0x2f ∉ host ∧ 0x3a ∉ host →
          (∀ q, port = some q → 0x2f ∉ q) →
          strchr (host ++ (portText port ++ 0x2f :: path)) 0x2f
            = some (host ++ portText port, path) := by
        intro host path port hhost hport
        rw [← List.append_assoc, strchr_append]
        rw [List.mem_append, not_or]
        exact ⟨hhost.1, slash_not_mem_portText hport⟩
      have hpair := (@hcut _ path _ hhost hport).symm.trans
        ((congrArg (strchr · 0x2f) hrest).trans (hcut hhost' hport'))
      obtain ⟨hauthority, rfl⟩ := Prod.mk.inj (Option.some.inj hpair)
      have hcolon : strchr (host ++ portText port) 0x3a
        = strchr (host' ++ portText port') 0x3a := by
        rw [hauthority]
      cases port with
      | none =>
        cases port' with
        | none =>
          simp only [portText, List.append_nil] at hauthority
          exact ⟨rfl, hauthority, rfl, rfl⟩
        | some q =>
          simp only [portText, List.append_nil] at hcolon
          rw [strchr_eq_none hhost.2, strchr_append hhost'.2] at hcolon
          cases hcolon
      | some q =>
        cases port' with
        | none =>
          simp only [portText, List.append_nil] at hcolon
          rw [strchr_eq_none hhost'.2, strchr_append hhost.2] at hcolon
          cases hcolon
        | some q' =>
          simp only [portText] at hcolon
          rw [strchr_append hhost.2, strchr_append hhost'.2] at hcolon
          obtain ⟨rfl, rfl⟩ := Prod.mk.inj (Option.some.inj hcolon)
          exact ⟨rfl, rfl, rfl, rfl⟩
  | scp hscheme hhost huri =>
    cases h' with
    | url hscheme' => rw [hscheme] at hscheme'; cases hscheme'
    | scp hscheme' hhost' huri' =>
      have heq := (strchr_append hhost.2 _).symm.trans
        ((congrArg (strchr · 0x3a) (huri.symm.trans huri')).trans (strchr_append hhost'.2 _))
      obtain ⟨rfl, rfl⟩ := Prod.mk.inj (Option.some.inj heq)
      exact ⟨rfl, rfl, rfl, rfl⟩

/-- **An address is parsed as it should be** unless it is cut before a path with a last part, and
the protocol, the host or the port behind a colon is empty, or the last part is `.git`. -/
theorem parsesUri_iff (uri : Bytes) : ParsesUri uri
    ↔ ∀ proto host port dir name, IsCut uri proto host port (dir ++ 0x2f :: name) →
      0x2f ∉ name → name ≠ [] →
        proto ≠ [] ∧ host ≠ [] ∧ port ≠ some [] ∧ name ≠ text ".git" := by
  constructor
  · intro h proto host port dir name hcut hname hne
    have hparse := gotFetchParseUri_of_cut hcut hname hne
    have hok : (gotFetchParseUri uri).2 = .ok () := by rw [hparse]
    obtain ⟨proto', host', port', path', repo, hparts, hsplit⟩ := h.splits hok
    rw [hparse] at hparts
    simp only [UriParts.mk.injEq, Option.some.injEq] at hparts
    obtain ⟨rfl, rfl, rfl, -, rfl⟩ := hparts
    obtain ⟨proto', host', port', path', hcut', hproto', -, hport', -⟩ :=
      not_not.mp fun hno => h.refuses hno hok
    obtain ⟨rfl, rfl, rfl, -⟩ := hcut.unique hcut'
    refine ⟨hproto', hsplit.host_ne, hport', fun hgit => hsplit.name_ne ?_⟩
    obtain ⟨dir', hskip⟩ := exists_skipLeadingSlashes hname dir
    rw [hskip, lastComponent_eq hname hne, withoutGit_eq_nil_iff hne]
    exact hgit
  · intro h
    by_cases hcut : ∃ proto host port dir name, IsCut uri proto host port (dir ++ 0x2f :: name)
        ∧ 0x2f ∉ name ∧ name ≠ []
    · obtain ⟨proto, host, port, dir, name, hcut, hname, hne⟩ := hcut
      obtain ⟨hproto, hhost, hport, hgit⟩ := h proto host port dir name hcut hname hne
      have hparse := gotFetchParseUri_of_cut hcut hname hne
      obtain ⟨dir', hskip⟩ := exists_skipLeadingSlashes hname dir
      have hpath : dir ++ 0x2f :: name ≠ [] :=
        List.append_ne_nil_of_right_ne_nil _ (List.cons_ne_nil _ _)
      refine ⟨fun _ => ⟨_, _, _, _, _, congrArg Prod.fst hparse, ⟨_, rfl, hcut.recombines⟩, hhost,
        ?_,
        ?_, rfl⟩, fun hno => absurd ⟨_, _, _, _, hcut, hproto, hhost, hport, hpath⟩ hno,
        fun herr => absurd (congrArg Prod.snd hparse) herr⟩
      · rw [hskip]
        exact List.append_ne_nil_of_right_ne_nil _ (List.cons_ne_nil _ _)
      · rw [hskip, lastComponent_eq hname hne, Ne, withoutGit_eq_nil_iff hne]
        exact hgit
    · have herror := @gotFetchParseUri_error uri fun proto host port dir name hc hname =>
        by_contra fun hne => hcut ⟨proto, host, port, dir, name, hc, hname, hne⟩
      refine ⟨fun hok => ?_, fun _ hok => ?_, fun _ => ?_⟩
      · rw [herror] at hok
        cases hok
      · rw [herror] at hok
        cases hok
      · rw [herror]

/-- **An address without a host**, and one with nothing but a suffix. -/
theorem not_parsesUri_noHost : ¬ ∀ uri, ParsesUri uri := by
  intro h
  obtain ⟨proto, host, port, path, repo, hparts, hsplit⟩ :=
    (h (text "git:///srv/repo")).splits (by decide)
  have hhost := congrArg UriParts.host hparts
  rw [show (gotFetchParseUri (text "git:///srv/repo")).1.host = some [] from by decide] at hhost
  exact hsplit.host_ne (Option.some.inj hhost).symm

end Got

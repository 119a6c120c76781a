import Got.FetchPack.Capabilities
import Got.FetchPack.Tokens

/-!
# The references that are selected

What the program reports of the references of a server should be those which the filters select,
wherever they are in the list. The loop does select each reference by its name alone. But it
goes on to the next packet once it has taken the capabilities from the first one, so the reference
in that one is looked at by nobody, unless it is sent again.

A reference whose name does not fit into a message ends the loop, and so do symbolic references
which do not fit into one.

The branch that is fetched by default is the one that the server's `HEAD` points to. The server
says so in its capabilities, and those are read up to the last line feed which is in the buffer
before the next zero. Behind a packet there may still be bytes of a longer one that was read
before. If there is a line feed among them then the name of the default branch ends with
what is left over there, and no branch of the server is called that. So what the server says
(`Advertisement.symrefs`) and what the program finds (`Advertisement.foundSymrefs`) are two lists.
-/

namespace Got

open ObjectFile Privsep

namespace FetchPack

variable {f : Filters} {name : Bytes} {len left n : ℕ} {c : UInt8}

/-! ## What is advertised -/

/-- The line of a reference. -/
def refLine (ref : Ref) : Bytes := gotSha1DigestToStr ref.1 ++ 0x20 :: (ref.2 ++ [0x0a])

/-- The first line, with the capabilities of the server. -/
def firstLine (ref : Ref) (capabilities : Bytes) : Bytes :=
  gotSha1DigestToStr ref.1 ++ 0x20 :: (ref.2 ++ 0 :: (capabilities ++ [0x0a]))

/-- **The references of a server**, each with what is in the buffer behind it, and the capabilities.
-/
structure Advertisement where
  /-- In the order in which they are sent. What is behind a line does not come from the server's
  answer, so nothing is said about it. -/
  lines : List (Ref × Bytes)
  capabilities : Bytes
  names : ∀ line ∈ lines, IsRefName line.1.2
  /-- A zero ends the name in the first line, the next one would end the capabilities. -/
  no_zero : 0 ∉ capabilities

namespace Advertisement

variable (a : Advertisement)

/-- The references. -/
def refs : List Ref := a.lines.map Prod.fst

/-- The packets. -/
def packets : List RefPacket :=
  match a.lines with
  | [] => []
  | (ref, behind) :: later =>
    ⟨firstLine ref a.capabilities, behind⟩ :: later.map fun line => ⟨refLine line.1, line.2⟩

/-- The symbolic references that the server has. -/
def symrefs : List (Bytes × Bytes) := advertisedSymrefs a.capabilities

/-- The symbolic references that the program finds. It reads on behind the first packet, and it
takes a word for one of them if its key is the start of `symref`. -/
def foundSymrefs : List (Bytes × Bytes) :=
  match a.lines with
  | [] => []
  | (_, behind) :: _ => symrefsOf (lastToken (a.capabilities ++ 0x0a :: behind))

end Advertisement

/-! ## What is selected -/

/-- **The references that the filters select.** All branches, or the wanted ones, or the one that
the server's `HEAD` points to if there is one; all tags; and of other references the wanted ones. -/
def Selected (f : Filters) (default : Option Bytes) (name : Bytes) : Prop :=
  isPeeled name = false ∧
    if headsPrefix.isPrefixOf name then
      f.fetchAllBranches ∨ f.listRefsOnly ∨ (∃ wanted ∈ f.wantedBranches, matchBranch name wanted) ∨
        f.wantedBranches = [] ∧ ∀ branch ∈ default, matchBranch name branch
    else
      tagsPrefix.isPrefixOf name ∨ (∃ wanted ∈ f.wantedRefs, matchWantedRef name wanted) ∨
        f.wantedRefs = [] ∧ f.listRefsOnly

/-- **The conditions of the loop select these.** -/
theorem takesRef_isSome_iff (default : Option Bytes) (hpeeled : isPeeled name = false) :
    (takesRef f default name).isSome ↔ Selected f default name := by
  unfold Selected
  rw [and_iff_right hpeeled]
  unfold takesRef
  by_cases hheads : headsPrefix.isPrefixOf name
  · rw [if_pos hheads, if_pos hheads]
    by_cases hall : f.fetchAllBranches = true ∨ f.listRefsOnly = true
    · rw [if_pos hall]
      exact iff_of_true rfl (hall.elim .inl fun h => .inr (.inl h))
    · obtain ⟨hall, hlist⟩ := not_or.mp hall
      rw [if_neg (not_or.mpr ⟨hall, hlist⟩), or_iff_right hall, or_iff_right hlist]
      by_cases hwanted : f.wantedBranches = []
      · rw [if_neg (not_not.mpr hwanted)]
        cases default with
        | none => exact iff_of_true rfl (.inr ⟨hwanted, fun _ h => nomatch h⟩)
        | some branch =>
          have hnone : ¬ ∃ wanted ∈ f.wantedBranches, matchBranch name wanted = true := by
            rw [hwanted]
            rintro ⟨_, h, -⟩
            exact nomatch h
          rw [or_iff_right hnone, and_iff_right hwanted]
          dsimp only
          by_cases hmatch : matchBranch name branch = true
          · rw [if_pos hmatch]
            exact iff_of_true rfl fun b hb => Option.some.inj hb ▸ hmatch
          · rw [if_neg hmatch]
            exact iff_of_false (fun h => nomatch h) fun h => hmatch (h branch rfl)
      · rw [if_pos hwanted, or_iff_left fun h => hwanted h.1, ← List.any_eq_true]
        split
        · next h => exact iff_of_true rfl h
        · next h => exact iff_of_false (fun h => nomatch h) h
  · rw [if_neg hheads, if_neg hheads]
    by_cases htags : tagsPrefix.isPrefixOf name
    · rw [if_neg (not_not.mpr htags)]
      exact iff_of_true rfl (.inl htags)
    · rw [if_pos htags, or_iff_right htags]
      by_cases hwanted : f.wantedRefs = []
      · have hnone : ¬ ∃ wanted ∈ f.wantedRefs, matchWantedRef name wanted = true := by
          rw [hwanted]
          rintro ⟨_, h, -⟩
          exact nomatch h
        rw [if_neg (not_not.mpr hwanted), or_iff_right hnone, and_iff_right hwanted]
        split
        · next h => exact iff_of_false (fun h => nomatch h) h
        · next h => exact iff_of_true rfl (not_not.mp h)
      · rw [if_pos hwanted, or_iff_left fun h => hwanted h.1, ← List.any_eq_true]
        split
        · next h => exact iff_of_true rfl h
        · next h => exact iff_of_false (fun h => nomatch h) h

/-! ## Lines are parsed -/

/-- The digest of an id in hexadecimal is a valid name too. -/
theorem isRefName_digest (id : Sha1) : IsRefName (gotSha1DigestToStr id) := by
  constructor
  · intro h
    have hlen := length_gotSha1DigestToStr id
    rw [h] at hlen
    exact nomatch hlen
  · intro c hc
    obtain ⟨b, -, hb⟩ := List.mem_flatMap.mp hc
    have hlt := b.toNat_lt
    have hhi := digit_spec (b.toNat / 16) (by omega)
    have hlo := digit_spec (b.toNat % 16) (by omega)
    simp only [List.mem_cons, List.not_mem_nil, or_false] at hb
    rcases hb with rfl | rfl
    · exact ⟨hhi.1, hhi.2.2.2⟩
    · exact ⟨hlo.1, hlo.2.2.2⟩

/-- **A line is parsed** if there is something for a third field. -/
theorem parseRefline_of_ending {id : Sha1} {refname ending : Bytes} (hname : IsRefName refname)
    (hend : ∀ c, ending.head? = some c → inToken c = false)
    (hne : ending.dropWhile (· = 0) ≠ []) (behind : Bytes) :
    ∃ capabilities, parseRefline ⟨gotSha1DigestToStr id ++ 0x20 :: (refname ++ ending), behind⟩ =
      .ok (gotSha1DigestToStr id, refname, capabilities) := by
  obtain ⟨hfirst, hsecond, hthird⟩ := fields_append (isRefName_digest id) hname hend
  rw [parseRefline_eq, if_neg (hthird ▸ hne), hfirst, hsecond]
  exact ⟨_, rfl⟩

theorem parseRefline_refLine {ref : Ref} (h : IsRefName ref.2) (behind : Bytes) :
    ∃ capabilities, parseRefline ⟨refLine ref, behind⟩ =
      .ok (gotSha1DigestToStr ref.1, ref.2, capabilities) :=
  parseRefline_of_ending h (fun c hc => by obtain rfl := Option.some.inj hc; rfl) (by decide) behind

/-- **The capabilities** go on behind the packet. -/
theorem parseRefline_firstLine {ref : Ref} {capabilities : Bytes} (h : IsRefName ref.2)
    (hzero : 0 ∉ capabilities) (behind : Bytes) :
    parseRefline ⟨firstLine ref capabilities, behind⟩ =
      .ok (gotSha1DigestToStr ref.1, ref.2, lastToken (capabilities ++ 0x0a :: behind)) := by
  have hend : ∀ c, (0 :: (capabilities ++ [0x0a])).head? = some c → inToken c = false := by
    intro c hc
    obtain rfl := Option.some.inj hc
    rfl
  obtain ⟨hfirst, hsecond, hthird⟩ := fields_append (isRefName_digest ref.1) h hend
  have hdrop : (0 :: (capabilities ++ [0x0a])).dropWhile (· = (0 : UInt8)) =
      capabilities ++ [0x0a] := by
    rw [List.dropWhile_cons_of_pos (by decide)]
    cases capabilities with
    | nil => rfl
    | cons c capabilities =>
      have hc : c ≠ 0 := fun hc => hzero (hc ▸ List.mem_cons_self)
      exact List.dropWhile_cons_of_neg (by rwa [decide_eq_true_eq])
  rw [hdrop] at hthird
  rw [firstLine, parseRefline_eq, hthird, if_neg (by simp), hfirst, hsecond, List.append_assoc]
  rfl

/-! ## The loop -/

/-- Whether the loop takes a reference. -/
def takes (f : Filters) (default : Option Bytes) (ref : Ref) : Bool :=
  !isPeeled ref.2 && (takesRef f default ref.2).isSome

/-- A reference is taken exactly when it is selected. -/
theorem takes_iff (default : Option Bytes) (ref : Ref) :
    takes f default ref = true ↔ Selected f default ref.2 := by
  unfold takes
  rw [Bool.and_eq_true, Bool.not_eq_true']
  constructor
  · rintro ⟨hpeeled, h⟩
    exact (takesRef_isSome_iff default hpeeled).mp h
  · intro h
    exact ⟨h.1, (takesRef_isSome_iff default h.1).mpr h⟩

/-- No line is an error message. -/
theorem not_error_digest (id : Sha1) (rest : Bytes) :
    ¬ (text "ERR ").isPrefixOf (gotSha1DigestToStr id ++ rest) = true := by
  obtain ⟨b, bs, hb⟩ : ∃ b bs, id.val = b :: bs := by
    refine List.exists_cons_of_ne_nil fun hnil => ?_
    have hlen := id.2
    rw [hnil] at hlen
    exact nomatch hlen
  have hdigit : ∀ n < 16, Numeral.digit n ≠ 0x45 := by decide
  have hne := hdigit (b.toNat / 16) (by have := b.toNat_lt; omega)
  have htext : text "ERR " = 0x45 :: [0x52, 0x52, 0x20] := by decide
  rw [gotSha1DigestToStr, hb, htext, List.flatMap_cons]
  intro h
  rw [List.isPrefixOf_iff_prefix] at h
  exact hne (List.cons_prefix_cons.mp h).1.symm

/-- **What the loop reports** is what it takes, as long as it fits into messages. -/
theorem readRefs_fst (default : Option Bytes) {lines : List (Ref × Bytes)}
    (h : ∀ line ∈ lines, IsRefName line.1.2) (foundBranch : Bool) :
    (readRefs f default (lines.map fun line => ⟨refLine line.1, line.2⟩) foundBranch).1 =
      ((lines.map Prod.fst).filter (takes f default)).takeWhile fun ref => refFits ref.2 := by
  induction lines generalizing foundBranch with
  | nil => rfl
  | cons line lines ih =>
    obtain ⟨⟨id, name⟩, behind⟩ := line
    rw [List.forall_mem_cons] at h
    obtain ⟨capabilities, hparse⟩ := @parseRefline_refLine (id, name) h.1 behind
    have ih := ih h.2
    have herr : ¬ (text "ERR ").isPrefixOf (refLine (id, name)) = true := not_error_digest id _
    rw [List.map_cons, List.map_cons, readRefs]
    dsimp only
    rw [if_neg herr, hparse]
    unfold takes at ih ⊢
    dsimp only
    rw [List.filter_cons]
    cases hpeeled : isPeeled name with
    | true =>
      rw [if_pos rfl, if_neg (by simp)]
      exact ih foundBranch
    | false =>
      rw [if_neg (by decide)]
      cases htakes : takesRef f default name with
      | none =>
        rw [if_neg (by simp)]
        exact ih foundBranch
      | some found =>
        have hid : gotParseSha1Digest (gotSha1DigestToStr id) = some id := by
          have hid := gotParseSha1Digest_append id []
          rwa [List.append_nil] at hid
        rw [if_pos (by simp), hid, List.takeWhile_cons]
        dsimp only
        cases hfits : refFits name with
        | true =>
          rw [if_neg (by decide), if_pos rfl]
          exact congrArg _ (ih (foundBranch || found))
        | false =>
          rw [if_pos (by decide), if_neg (by decide)]

/-- **If the loop succeeds** then all that it takes fits into messages, and it has taken something
if it has found a branch. -/
theorem readRefs_snd (default : Option Bytes) {lines : List (Ref × Bytes)}
    (h : ∀ line ∈ lines, IsRefName line.1.2) {foundBranch found : Bool}
    (hok : (readRefs f default (lines.map fun line => ⟨refLine line.1, line.2⟩) foundBranch).2 =
      .ok found) :
    (∀ ref ∈ (lines.map Prod.fst).filter (takes f default), refFits ref.2) ∧
      (found = true → foundBranch = true ∨ (lines.map Prod.fst).filter (takes f default) ≠ []) := by
  induction lines generalizing foundBranch with
  | nil =>
    refine ⟨fun _ hmem => (nomatch hmem), fun hfound => .inl ?_⟩
    exact (Except.ok.inj hok).trans hfound
  | cons line lines ih =>
    obtain ⟨⟨id, name⟩, behind⟩ := line
    rw [List.forall_mem_cons] at h
    obtain ⟨capabilities, hparse⟩ := @parseRefline_refLine (id, name) h.1 behind
    have ih := @ih h.2
    have herr : ¬ (text "ERR ").isPrefixOf (refLine (id, name)) = true := not_error_digest id _
    rw [List.map_cons, readRefs] at hok
    dsimp only at hok
    rw [if_neg herr, hparse] at hok
    dsimp only at hok
    rw [List.map_cons, List.filter_cons]
    by_cases htakes : takes f default (id, name) = true
    · have htakes' := htakes
      unfold takes at htakes'
      rw [Bool.and_eq_true, Bool.not_eq_true', Option.isSome_iff_exists] at htakes'
      obtain ⟨hpeeled, taken, htaken⟩ := htakes'
      have hid : gotParseSha1Digest (gotSha1DigestToStr id) = some id := by
        have hid := gotParseSha1Digest_append id []
        rwa [List.append_nil] at hid
      rw [hpeeled, if_neg (by decide), htaken, hid] at hok
      dsimp only at hok
      rw [if_pos htakes]
      cases hfits : refFits name with
      | false =>
        rw [hfits, if_pos (by decide)] at hok
        exact nomatch hok
      | true =>
        rw [hfits, if_neg (by decide)] at hok
        exact ⟨List.forall_mem_cons.mpr ⟨hfits, (ih hok).1⟩, fun _ => .inr (List.cons_ne_nil _ _)⟩
    · rw [if_neg htakes]
      refine ih ?_
      rw [← hok]
      cases hpeeled : isPeeled name with
      | true => rw [if_pos rfl]
      | false =>
        cases htaken : takesRef f default name with
        | none => rw [if_neg (by decide)]
        | some taken =>
          refine absurd ?_ htakes
          unfold takes
          rw [hpeeled, htaken]
          rfl

/-- What is asked for is what is reported and not there. -/
theorem fetchPackRefs_snd {haveRefs : List (Bytes × Sha1)} {packets : List RefPacket}
    {ids : List Sha1}
    (h : (fetchPackRefs f haveRefs packets).2 = .ok ids) (hlist : f.listRefsOnly = false) :
    ids = ((fetchPackRefs f haveRefs packets).1.filter
      fun ref => matchRemoteRef haveRefs ref.2 ≠ ref.1).map Prod.fst := by
  have hrequest {refs : List Ref} {found : Bool}
    (hok : requestRefs f haveRefs refs found = .ok ids) :
      ids = (refs.filter fun ref => matchRemoteRef haveRefs ref.2 ≠ ref.1).map Prod.fst := by
    unfold requestRefs at hok
    rw [hlist, if_neg (by decide)] at hok
    split at hok
    · cases hok
    · exact (Except.ok.inj hok).symm
  unfold fetchPackRefs at h ⊢
  cases packets with
  | nil => exact hrequest h
  | cons packet packets =>
    dsimp only at h ⊢
    split at h
    · cases h
    next herr =>
    rw [if_neg herr]
    split at h
    · cases h
    next capabilities hparse =>
    split at h
    · cases h
    next hfit =>
    obtain ⟨found, -, hok⟩ := bind_eq_ok_iff.mp h
    rw [if_neg hfit]
    exact hrequest hok

/-! ## The whole -/

/-- **The references that the loop reads**: those behind the first one, up to one that it takes but
cannot send. It does not come to any of them if it cannot send the symbolic references. -/
def Advertisement.read (a : Advertisement) (f : Filters) : List Ref :=
  if symrefsFit a.foundSymrefs then
    a.refs.tail.takeWhile fun ref => !takes f (defaultBranch f a.foundSymrefs) ref || refFits ref.2
  else []

/-- **The program fetches what the filters select**: what it reports are the references which are
selected, and what it asks for, if it gets there, are those of them that it does not have. Which
branch is selected by default is a matter of what the server has, not of what the program finds. -/
structure FetchesSelected (f : Filters) (haveRefs : List (Bytes × Sha1)) (a : Advertisement) :
    Prop where
  reported : ∀ ref, ref ∈ (fetchPackRefs f haveRefs a.packets).1 ↔
    ref ∈ a.refs ∧ Selected f (defaultBranch f a.symrefs) ref.2
  requested : ∀ ids, (fetchPackRefs f haveRefs a.packets).2 = .ok ids → f.listRefsOnly = false →
    ∀ id, id ∈ ids ↔ ∃ ref ∈ a.refs, Selected f (defaultBranch f a.symrefs) ref.2 ∧
      matchRemoteRef haveRefs ref.2 ≠ ref.1 ∧ ref.1 = id

/-- The elements that are taken, up to one that stops, are those which are taken of the list up
to one that is taken and stops. -/
theorem takeWhile_filter {α : Type*} (p q : α → Bool) (l : List α) :
    (l.filter p).takeWhile q = (l.takeWhile fun x => !p x || q x).filter p := by
  induction l with
  | nil => rfl
  | cons x l ih => cases hp : p x <;> cases hq : q x <;> simp [hp, hq, ih]

/-- **What is reported** is what is taken of the references that are read. -/
theorem fetchPackRefs_fst (f : Filters) (haveRefs : List (Bytes × Sha1)) (a : Advertisement) :
    (fetchPackRefs f haveRefs a.packets).1 =
      (a.read f).filter (takes f (defaultBranch f a.foundSymrefs)) := by
  obtain ⟨lines, capabilities, hnames, hzero⟩ := a
  unfold Advertisement.read
  cases lines with
  | nil => split <;> rfl
  | cons line lines =>
    obtain ⟨⟨id, name⟩, behind⟩ := line
    have hnames' := List.forall_mem_cons.mp hnames
    have hparse := @parseRefline_firstLine (id, name) capabilities hnames'.1 hzero behind
    have herr : ¬ (text "ERR ").isPrefixOf (firstLine (id, name) capabilities) = true :=
      not_error_digest id _
    unfold Advertisement.packets Advertisement.refs Advertisement.foundSymrefs
    dsimp only
    rw [fetchPackRefs]
    dsimp only
    rw [if_neg herr, hparse]
    dsimp only
    cases symrefsFit (symrefsOf (lastToken (capabilities ++ 0x0a :: behind))) with
    | true =>
      rw [if_neg (by decide), if_pos rfl, List.map_cons, List.tail_cons, ← takeWhile_filter]
      exact readRefs_fst _ hnames'.2 false
    | false =>
      rw [if_pos (by decide), if_neg (by decide)]
      rfl

/-- **If the program succeeds** then it has reported all that it takes of the references behind the
first one, and something at least. -/
theorem fetchPackRefs_ok {haveRefs : List (Bytes × Sha1)} {a : Advertisement} {ids : List Sha1}
    (h : (fetchPackRefs f haveRefs a.packets).2 = .ok ids) (hlist : f.listRefsOnly = false) :
    (fetchPackRefs f haveRefs a.packets).1 =
        a.refs.tail.filter (takes f (defaultBranch f a.foundSymrefs)) ∧
      (fetchPackRefs f haveRefs a.packets).1 ≠ [] := by
  have hrequest {refs : List Ref} {found : Bool}
    (hok : requestRefs f haveRefs refs found = .ok ids) :
      found = true := by
    unfold requestRefs at hok
    rw [hlist, if_neg (by decide)] at hok
    cases found with
    | false =>
      rw [if_pos (by decide)] at hok
      exact nomatch hok
    | true => rfl
  have hfst := fetchPackRefs_fst f haveRefs a
  obtain ⟨lines, capabilities, hnames, hzero⟩ := a
  cases lines with
  | nil => exact absurd (hrequest h) (by decide)
  | cons line lines =>
    obtain ⟨⟨id, name⟩, behind⟩ := line
    have hnames' := List.forall_mem_cons.mp hnames
    have hparse := @parseRefline_firstLine (id, name) capabilities hnames'.1 hzero behind
    have herr : ¬ (text "ERR ").isPrefixOf (firstLine (id, name) capabilities) = true :=
      not_error_digest id _
    unfold Advertisement.read Advertisement.refs Advertisement.foundSymrefs at hfst
    unfold Advertisement.refs Advertisement.foundSymrefs
    unfold Advertisement.packets at h
    dsimp only at h hfst ⊢
    rw [fetchPackRefs] at h
    dsimp only at h
    rw [if_neg herr, hparse] at h
    dsimp only at h
    cases hfit : symrefsFit (symrefsOf (lastToken (capabilities ++ 0x0a :: behind))) with
    | false =>
      rw [hfit, if_pos (by decide)] at h
      exact nomatch h
    | true =>
      rw [hfit, if_neg (by decide)] at h
      obtain ⟨foundBranch, hread, hok⟩ := bind_eq_ok_iff.mp h
      obtain ⟨hfits, htaken⟩ := readRefs_snd _ hnames'.2 hread
      rw [hfit, if_pos rfl, List.map_cons, List.tail_cons, ← takeWhile_filter,
        List.takeWhile_eq_self_iff.mpr hfits] at hfst
      rw [hfst, List.map_cons, List.tail_cons]
      exact ⟨rfl, (htaken (hrequest hok)).resolve_left (by decide)⟩

/-- What is read of an advertisement was advertised. -/
theorem Advertisement.mem_refs_of_mem_read {a : Advertisement} {ref : Ref} (h : ref ∈ a.read f) :
    ref ∈ a.refs := by
  unfold Advertisement.read at h
  split at h
  · exact List.mem_of_mem_tail ((List.takeWhile_sublist _).subset h)
  · exact nomatch h

/-- **The program fetches what the filters select exactly if** it reads each reference that they
select, and the default branch that it finds selects the same ones of those that it reads as the
one which the server has. -/
theorem fetchesSelected_iff (f : Filters) (haveRefs : List (Bytes × Sha1)) (a : Advertisement) :
    FetchesSelected f haveRefs a ↔
      (∀ ref ∈ a.refs, Selected f (defaultBranch f a.symrefs) ref.2 → ref ∈ a.read f) ∧
        ∀ ref ∈ a.read f, Selected f (defaultBranch f a.foundSymrefs) ref.2 ↔
          Selected f (defaultBranch f a.symrefs) ref.2 := by
  have hmem (ref : Ref) : ref ∈ (fetchPackRefs f haveRefs a.packets).1 ↔
      ref ∈ a.read f ∧ Selected f (defaultBranch f a.foundSymrefs) ref.2 := by
    rw [fetchPackRefs_fst, List.mem_filter, takes_iff]
  constructor
  · intro h
    have hiff (ref : Ref) := (hmem ref).symm.trans (h.reported ref)
    refine ⟨fun ref href hselected => ((hiff ref).mpr ⟨href, hselected⟩).1, fun ref href => ?_⟩
    exact ⟨fun hfound => ((hiff ref).mp ⟨href, hfound⟩).2,
      fun hselected => ((hiff ref).mpr ⟨a.mem_refs_of_mem_read href, hselected⟩).2⟩
  · rintro ⟨hread, hsame⟩
    have hreported : ∀ ref, ref ∈ (fetchPackRefs f haveRefs a.packets).1 ↔
        ref ∈ a.refs ∧ Selected f (defaultBranch f a.symrefs) ref.2 := by
      intro ref
      rw [hmem]
      constructor
      · rintro ⟨href, hfound⟩
        exact ⟨a.mem_refs_of_mem_read href, (hsame ref href).mp hfound⟩
      · rintro ⟨href, hselected⟩
        have href := hread ref href hselected
        exact ⟨href, (hsame ref href).mpr hselected⟩
    refine ⟨hreported, fun ids hids hlist id => ?_⟩
    rw [fetchPackRefs_snd hids hlist, List.mem_map]
    constructor
    · rintro ⟨ref, hmem, rfl⟩
      obtain ⟨hmem, hne⟩ := List.mem_filter.mp hmem
      obtain ⟨href, hselected⟩ := (hreported ref).mp hmem
      exact ⟨ref, href, hselected, of_decide_eq_true hne, rfl⟩
    · rintro ⟨ref, href, hselected, hne, rfl⟩
      exact ⟨ref, List.mem_filter.mpr ⟨(hreported ref).mpr ⟨href, hselected⟩, decide_eq_true hne⟩,
        rfl⟩

/-- A server with a branch `refs/heads/a`, and no capabilities. -/
def oneBranch : Advertisement where
  lines := [((oidOf [], text "refs/heads/a"), [])]
  capabilities := []
  names := by
    intro line hline
    obtain rfl := List.mem_singleton.mp hline
    exact ⟨by decide, by decide +kernel⟩
  no_zero := List.not_mem_nil

/-- All branches are wanted. -/
def allBranches : Filters := ⟨true, [], [], false⟩

/-- **The branch is not fetched**, although all branches are: it is in the first packet. -/
theorem not_fetchesSelected_oneBranch :
    (fetchPackRefs allBranches [] oneBranch.packets).1 = [] ∧
      ¬ FetchesSelected allBranches [] oneBranch := by
  have hnone : (fetchPackRefs allBranches [] oneBranch.packets).1 = [] := by decide
  refine ⟨hnone, fun h => ?_⟩
  have hmem := (h.reported (oidOf [], text "refs/heads/a")).mpr
    ⟨List.mem_singleton.mpr rfl, by decide, by
      rw [if_pos (by decide)]
      exact .inl rfl⟩
  rw [hnone] at hmem
  exact nomatch hmem

end FetchPack

end Got

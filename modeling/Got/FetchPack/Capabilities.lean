import Mathlib.Data.List.Flatten
import Got.FetchPack.Refs

/-!
# Capabilities

The first line of a server tells what the server is capable of, in words with a blank between
them, some of which have a value. The program answers with those that it supports too, with its
own values, and takes note of the symbolic references.

A word that has a value is compared with a key only as far as its own key goes, so the beginning
of a key matches as well. And there are no capabilities at all, rather than none of them, if no
word has matched: the loop is left by a return as soon as there are no more words, and the string
that would be made behind the loop is not. So the answer is as it should be exactly if there is a
word that matches with its full key, and all words which have a value and match do.
-/

namespace Got

namespace FetchPack

variable {version s : Bytes} {fuel : ℕ}

/-- `struct got_capability` -/
structure GotCapability where
  key : Bytes
  value : Option Bytes

/-- `got_capabilities`. The version is known when the program is compiled. -/
def gotCapabilities (version : Bytes) : List GotCapability :=
  [⟨text "agent", some (text "got/" ++ version)⟩, ⟨text "ofs-delta", none⟩,
    ⟨text "side-band-64k", none⟩]

/-- A capability, as it is sent. -/
def GotCapability.format (c : GotCapability) : Bytes :=
  0x20 :: (c.key ++ match c.value with
    | some value => 0x3d :: value
    | none => [])

/-- What is before the equal sign of a word, if there is one. -/
def keyOf (capa : Bytes) : Bytes := capa.takeWhile (· ≠ 0x3d)

/-- What is behind the equal sign. -/
def valueOf (capa : Bytes) : Bytes := (capa.dropWhile (· ≠ 0x3d)).tail

/-- Whether a word matches: with `strncmp(3)` up to an equal sign, or with `strcmp(3)`. -/
def matchesKey (capa key : Bytes) : Bool :=
  if 0x3d ∈ capa then (keyOf capa).isPrefixOf key else capa = key

/-- **`match_capability`** -/
def matchCapability (capa : Bytes) (myCapabilities : Option Bytes) (mycapa : GotCapability) :
    Option Bytes :=
  if matchesKey capa mycapa.key then some (myCapabilities.getD [] ++ mycapa.format)
  else myCapabilities

/-- `strsep(3)`: what is before a delimiter, and what is left to be taken apart. -/
def strsep (delim : UInt8) : Option Bytes → Option Bytes × Option Bytes
  | none => (none, none)
  | some s => (some (s.takeWhile (· ≠ delim)), (s.dropWhile (· ≠ delim)).tail?)

/-- Whether a word is taken for a symbolic reference. -/
def isSymref (capa : Bytes) : Bool := 0x3d ∈ capa ∧ (keyOf capa).isPrefixOf (text "symref")

/-- The loop of `match_capabilities`, which returns where there are no more words. -/
def matchCapabilitiesLoop (version : Bytes) : ℕ → (serverCapabilities : Option Bytes) →
    (myCapabilities : Option Bytes) → (symrefs : List (Bytes × Bytes)) →
    Option Bytes × List (Bytes × Bytes)
  | 0, _, my, symrefs => (my, symrefs)
  | fuel + 1, server, my, symrefs =>
    match strsep 0x20 server with
    | (none, _) => (my, symrefs)
    | (some capa, server) =>
      if isSymref capa then
        matchCapabilitiesLoop version fuel server my (symrefs ++ (addSymref (valueOf capa)).toList)
      else
        matchCapabilitiesLoop version fuel server
          ((gotCapabilities version).foldl (matchCapability capa) my) symrefs

/-- **`match_capabilities`**: the capabilities, which can be `NULL`, and the symbolic references.
Nothing but a lack of memory makes it fail. -/
def matchCapabilities (version serverCapabilities : Bytes) : Option Bytes × List (Bytes × Bytes) :=
  matchCapabilitiesLoop version (serverCapabilities.length + 2) (some serverCapabilities) none []

/-! ## What is to be matched -/

/-- **The capabilities that a server has advertised** with their full key, of those which are
supported. -/
def advertised (version s : Bytes) : List GotCapability :=
  (s.splitOn 0x20).flatMap fun capa => (gotCapabilities version).filter (·.key = keyOf capa)

/-- The symbolic reference of a word with this key. -/
def symref? (capa : Bytes) : Option (Bytes × Bytes) :=
  if 0x3d ∈ capa ∧ keyOf capa = text "symref" then addSymref (valueOf capa) else none

/-- **The symbolic references of a server.** -/
def advertisedSymrefs (s : Bytes) : List (Bytes × Bytes) := (s.splitOn 0x20).filterMap symref?

/-- **What is matched is what was advertised**, possibly nothing. -/
def MatchesAdvertised (version s : Bytes) : Prop :=
  matchCapabilities version s = (some ((advertised version s).flatMap GotCapability.format),
    advertisedSymrefs s)

/-- **A word with its full key**: if it has a value, and is taken for a symbolic reference, or for
one of the capabilities, then it is that one. -/
def HasFullKey (version capa : Bytes) : Prop :=
  0x3d ∈ capa →
    if keyOf capa <+: text "symref" then keyOf capa = text "symref"
      ∨ addSymref (valueOf capa) = none
    else ∀ c ∈ gotCapabilities version, keyOf capa <+: c.key → keyOf capa = c.key

example : (matchCapabilities (text "1") (text "ofs-delta symref=HEAD:refs/heads/main agent=git")).1
    = some (text " ofs-delta agent=got/1") := by decide

/-! ## Words -/

/-- The first word, and what is behind the blank that ends it. -/
theorem splitOn_eq_strsep (s : Bytes) :
    s.splitOn 0x20 = s.takeWhile (· ≠ 0x20)
      :: (match (s.dropWhile (· ≠ 0x20)).tail? with
        | some rest => rest.splitOn 0x20
        | none => []) := by
  have hword : ∀ c ∈ s.takeWhile (· ≠ 0x20), (c == 0x20) = false := by
    intro c hc
    have hne := List.mem_takeWhile_imp hc
    simpa using hne
  have hsplit := @List.takeWhile_append_dropWhile _ (· ≠ 0x20) s
  have hhead := List.head?_dropWhile_not (· ≠ 0x20) s
  rw [List.splitOn_eq_splitOnP]
  cases hdrop : s.dropWhile (· ≠ 0x20) with
  | nil =>
    rw [hdrop, List.append_nil] at hsplit
    conv_lhs => rw [← hsplit]
    exact List.splitOnP_eq_singleton hword
  | cons c rest =>
    rw [hdrop] at hsplit hhead
    have hc : (c == 0x20) = true := by simpa using hhead
    conv_lhs => rw [← hsplit]
    rw [List.splitOnP_append_cons_of_forall_mem hword c hc]
    rfl

/-- What one word adds to the capabilities. -/
def matchedText (version capa : Bytes) : Bytes :=
  if isSymref capa then []
  else ((gotCapabilities version).filter fun c => matchesKey capa c.key).flatMap
    GotCapability.format

/-- The symbolic reference that is found in one word. -/
def foundSymref (capa : Bytes) : Option (Bytes × Bytes) :=
  if isSymref capa then addSymref (valueOf capa) else none

/-- Capabilities with more of them behind, which are still `NULL` if nothing was added. -/
def addText (my : Option Bytes) (more : Bytes) : Option Bytes :=
  if more = [] then my else some (my.getD [] ++ more)

/-- Adding two texts one after the other adds them as one. -/
theorem addText_append (my : Option Bytes) (more more' : Bytes) :
    addText (addText my more) more' = addText my (more ++ more') := by
  unfold addText
  by_cases hmore : more = []
  · rw [if_pos hmore, hmore, List.nil_append]
  · rw [if_neg hmore, if_neg fun h => hmore (List.append_eq_nil_iff.mp h).1, Option.getD_some]
    split
    · next hmore' => rw [hmore', List.append_nil]
    · rw [List.append_assoc]

/-- Matching the server's list collects the entries of each key, in the order of our own list. -/
theorem foldl_matchCapability (capa : Bytes) (cs : List GotCapability) (my : Option Bytes) :
    cs.foldl (matchCapability capa) my
      = addText my ((cs.filter fun c => matchesKey capa c.key).flatMap GotCapability.format) := by
  induction cs generalizing my with
  | nil => rfl
  | cons c cs ih =>
    rw [List.foldl_cons, ih, matchCapability]
    rw [List.filter_cons]
    split
    · have hformat : addText my c.format = some (my.getD [] ++ c.format) :=
        if_neg (List.cons_ne_nil _ _)
      rw [List.flatMap_cons, ← addText_append, hformat]
    · rfl

/-- **The loop goes over all words**, one after the other. -/
theorem matchCapabilitiesLoop_eq (version : Bytes) (hfuel : s.length + 1 < fuel) (my : Option Bytes)
    (symrefs : List (Bytes × Bytes)) :
    matchCapabilitiesLoop version fuel (some s) my symrefs
      = (addText my ((s.splitOn 0x20).flatMap (matchedText version)),
        symrefs ++ (s.splitOn 0x20).filterMap foundSymref) := by
  induction fuel generalizing s my symrefs with
  | zero => omega
  | succ fuel ih =>
    rw [splitOn_eq_strsep, List.flatMap_cons, List.filterMap_cons]
    generalize hcapa : s.takeWhile (· ≠ 0x20) = capa
    have hnext : matchCapabilitiesLoop version (fuel + 1) (some s) my symrefs
        = matchCapabilitiesLoop version fuel (s.dropWhile (· ≠ 0x20)).tail?
          (addText my (matchedText version capa)) (symrefs ++ (foundSymref capa).toList) := by
      rw [matchCapabilitiesLoop, strsep, hcapa]
      dsimp only
      unfold matchedText foundSymref
      split
      · rfl
      · rw [foldl_matchCapability, Option.toList_none, List.append_nil]
    rw [hnext]
    cases hrest : (s.dropWhile (· ≠ 0x20)).tail? with
    | none =>
      have hdone : ∀ my symrefs, matchCapabilitiesLoop version fuel none my symrefs
        = (my, symrefs) := by
        intro my symrefs
        cases fuel <;> rfl
      rw [hdone]
      dsimp only
      rw [List.flatMap_nil, List.append_nil, List.filterMap_nil]
      cases foundSymref capa <;> rfl
    | some rest =>
      have hlen : rest.length < s.length := by
        have hle := (List.dropWhile_suffix (l := s) (· ≠ 0x20)).length_le
        cases hdrop : s.dropWhile (· ≠ 0x20) with
        | nil =>
          rw [hdrop] at hrest
          cases hrest
        | cons c tail =>
          rw [hdrop] at hrest hle
          obtain rfl := Option.some.inj hrest
          exact hle
      rw [ih (by omega), addText_append]
      dsimp only
      cases foundSymref capa with
      | none => rw [Option.toList_none, List.append_nil]
      | some symref =>
        rw [Option.toList_some, List.append_assoc]
        rfl

/-- The matched text is put together word by word, and the symbolic references are kept apart. -/
theorem matchCapabilities_eq (version s : Bytes) :
    matchCapabilities version s
      = (addText none ((s.splitOn 0x20).flatMap (matchedText version)), symrefsOf s) := by
  rw [matchCapabilities, matchCapabilitiesLoop_eq version (Nat.lt_succ_self _), List.nil_append]
  congr 2
  funext capa
  unfold foundSymref isSymref keyOf valueOf
  simp only [decide_eq_true_eq]

/-! ## Full keys -/

/-- No key of a capability is the beginning of another one. -/
theorem key_eq_of_isPrefix (version : Bytes) {c d : GotCapability}
    (hc : c ∈ gotCapabilities version)
    (hd : d ∈ gotCapabilities version) (h : c.key <+: d.key) : c.key = d.key := by
  have hkeys : ∀ k ∈ ([text "agent", text "ofs-delta", text "side-band-64k"] : List Bytes),
      ∀ l ∈ ([text "agent", text "ofs-delta", text "side-band-64k"] : List Bytes),
      k <+: l → k = l := by decide
  exact hkeys c.key (List.mem_map_of_mem (f := GotCapability.key) hc) d.key
    (List.mem_map_of_mem (f := GotCapability.key) hd) h

/-- No key of a capability begins like `symref`. -/
theorem not_isPrefix_symref (version : Bytes) {c : GotCapability}
    (hc : c ∈ gotCapabilities version) :
    ¬c.key <+: text "symref" := by
  have hkeys : ∀ k ∈ ([text "agent", text "ofs-delta", text "side-band-64k"] : List Bytes),
      ¬k <+: text "symref" := by decide
  exact hkeys c.key (List.mem_map_of_mem (f := GotCapability.key) hc)

theorem keyOf_of_not_mem {capa : Bytes} (h : 0x3d ∉ capa) : keyOf capa = capa :=
  List.takeWhile_eq_self_iff.mpr fun _ hc => decide_eq_true fun heq => h (heq ▸ hc)

/-- What one word that was advertised with its full key adds. -/
def advertisedText (version capa : Bytes) : Bytes :=
  ((gotCapabilities version).filter (·.key = keyOf capa)).flatMap GotCapability.format

theorem filter_eq_nil_of_symref {version capa : Bytes} (h : keyOf capa <+: text "symref") :
    (gotCapabilities version).filter (·.key = keyOf capa) = [] :=
  List.filter_eq_nil_iff.mpr fun _ hc heq =>
    not_isPrefix_symref version hc (of_decide_eq_true heq ▸ h)

theorem flatMap_format_eq_nil_iff (cs : List GotCapability) :
    cs.flatMap GotCapability.format = [] ↔ cs = [] := by
  cases cs with
  | nil => exact iff_of_true rfl rfl
  | cons c cs =>
    refine iff_of_false (fun h => ?_) (List.cons_ne_nil _ _)
    exact absurd (List.append_eq_nil_iff.mp h).1 (List.cons_ne_nil _ _)

/-- A word that is no symbolic reference, and has a value. -/
theorem matchedText_of_mem (version : Bytes) {capa : Bytes} (hmem : 0x3d ∈ capa)
    (hsym : ¬keyOf capa <+: text "symref") :
    matchedText version capa
      = ((gotCapabilities version).filter fun c => (keyOf capa).isPrefixOf c.key).flatMap
        GotCapability.format := by
  have hno : ¬isSymref capa = true := by
    rw [isSymref, decide_eq_true_eq, List.isPrefixOf_iff_prefix]
    exact fun h => hsym h.2
  rw [matchedText, if_neg hno]
  congr 1
  refine List.filter_congr fun c _ => ?_
  rw [matchesKey, if_pos hmem]

/-- A word without a value is matched as a whole. -/
theorem matchedText_of_not_mem (version : Bytes) {capa : Bytes} (hmem : 0x3d ∉ capa) :
    matchedText version capa = advertisedText version capa := by
  have hno : ¬isSymref capa = true := by
    rw [isSymref, decide_eq_true_eq]
    exact fun h => hmem h.1
  rw [matchedText, if_neg hno, advertisedText]
  congr 1
  refine List.filter_congr fun c _ => ?_
  rw [matchesKey, if_neg hmem, keyOf_of_not_mem hmem]
  exact decide_eq_decide.mpr eq_comm

/-- **What is matched of a word** is what was advertised with it, or that is nothing. -/
theorem advertisedText_eq_or (version capa : Bytes) :
    advertisedText version capa = matchedText version capa ∨ advertisedText version capa = [] := by
  by_cases hmem : 0x3d ∈ capa
  swap
  · exact Or.inl (matchedText_of_not_mem version hmem).symm
  by_cases hsym : keyOf capa <+: text "symref"
  · right
    rw [advertisedText, filter_eq_nil_of_symref hsym]
    rfl
  rw [matchedText_of_mem version hmem hsym]
  unfold advertisedText
  by_cases hfull : ∃ c ∈ gotCapabilities version, c.key = keyOf capa
  · obtain ⟨c, hc, hkey⟩ := hfull
    left
    congr 1
    refine List.filter_congr fun d hd => ?_
    rw [Bool.eq_iff_iff, decide_eq_true_eq, List.isPrefixOf_iff_prefix]
    refine ⟨fun heq => heq ▸ List.prefix_refl _, fun hpre => ?_⟩
    rw [← hkey] at hpre ⊢
    exact (key_eq_of_isPrefix version hc hd hpre).symm
  · right
    rw [flatMap_format_eq_nil_iff]
    exact List.filter_eq_nil_iff.mpr fun d hd heq => hfull ⟨d, hd, of_decide_eq_true heq⟩

/-- **A word is matched as it was advertised** exactly if it has its full key. -/
theorem hasFullKey_iff (version capa : Bytes) : HasFullKey version capa
    ↔ matchedText version capa = advertisedText version capa ∧ foundSymref capa = symref? capa := by
  unfold HasFullKey
  by_cases hmem : 0x3d ∈ capa
  swap
  · have hno : ¬isSymref capa = true := by
      rw [isSymref, decide_eq_true_eq]
      exact fun h => hmem h.1
    refine iff_of_true (fun h => absurd h hmem) ⟨matchedText_of_not_mem version hmem, ?_⟩
    rw [foundSymref, if_neg hno, symref?, if_neg fun h => hmem h.1]
  rw [forall_prop_of_true hmem]
  by_cases hsym : keyOf capa <+: text "symref"
  · have hfound : isSymref capa = true :=
      decide_eq_true ⟨hmem, List.isPrefixOf_iff_prefix.mpr hsym⟩
    have htext : matchedText version capa = advertisedText version capa := by
      rw [matchedText, if_pos hfound, advertisedText, filter_eq_nil_of_symref hsym]
      rfl
    rw [if_pos hsym, and_iff_right htext, foundSymref, if_pos hfound, symref?]
    by_cases hkey : keyOf capa = text "symref"
    · rw [if_pos ⟨hmem, hkey⟩]
      exact iff_of_true (Or.inl hkey) rfl
    · rw [if_neg fun h => hkey h.2, or_iff_right hkey]
  · have hfound : foundSymref capa = symref? capa := by
      rw [foundSymref, symref?, if_neg, if_neg]
      · exact fun h => hsym (h.2 ▸ List.prefix_refl _)
      · rw [isSymref, decide_eq_true_eq, List.isPrefixOf_iff_prefix]
        exact fun h => hsym h.2
    rw [if_neg hsym, and_iff_left hfound]
    have htext := matchedText_of_mem version hmem hsym
    constructor
    · intro h
      rw [htext, advertisedText]
      congr 1
      refine List.filter_congr fun c hc => ?_
      rw [Bool.eq_iff_iff, decide_eq_true_eq, List.isPrefixOf_iff_prefix]
      exact ⟨fun hpre => (h c hc hpre).symm, fun heq => heq ▸ List.prefix_refl _⟩
    · intro h c hc hpre
      -- something was matched, so it was advertised
      have hne : advertisedText version capa ≠ [] := by
        rw [← h, htext, Ne, flatMap_format_eq_nil_iff, List.filter_eq_nil_iff]
        exact fun hnone => hnone c hc (List.isPrefixOf_iff_prefix.mpr hpre)
      rw [advertisedText, Ne, flatMap_format_eq_nil_iff] at hne
      obtain ⟨d, hd⟩ := List.exists_mem_of_ne_nil _ hne
      obtain ⟨hd, hkey⟩ := List.mem_filter.mp hd
      have hkey := of_decide_eq_true hkey
      rw [← hkey] at hpre ⊢
      exact key_eq_of_isPrefix version hd hc hpre

/-! ## All words -/

/-- Lists that are put together of parts, which are the same or missing. -/
theorem flatMap_eq_iff {α β : Type} {f g : α → List β} {ts : List α}
    (h : ∀ t ∈ ts, g t = f t ∨ g t = []) :
    ts.flatMap f = ts.flatMap g ↔ ∀ t ∈ ts, f t = g t := by
  have hle : ∀ t ∈ ts, (g t).Sublist (f t) := by
    intro t ht
    rcases h t ht with heq | hnil
    · rw [heq]
    · rw [hnil]
      exact List.nil_sublist _
  refine ⟨fun heq => ?_, List.flatMap_congr⟩
  clear h
  induction ts with
  | nil => exact fun t ht => absurd ht List.not_mem_nil
  | cons t ts ih =>
    rw [List.flatMap_cons, List.flatMap_cons] at heq
    obtain ⟨ht, hts⟩ := List.forall_mem_cons.mp hle
    have hfirst := ht.length_le
    have hrest := (List.Sublist.flatMap_right ts hts).length_le
    have hlen := congrArg List.length heq
    rw [List.length_append, List.length_append] at hlen
    obtain ⟨hfirst, hothers⟩ := List.append_inj heq (by omega)
    exact List.forall_mem_cons.mpr ⟨hfirst, ih hts hothers⟩

theorem toList_injective {α : Type} : Function.Injective (@Option.toList α) := by
  rintro (_ | a) (_ | b) h
  · rfl
  · cases h
  · cases h
  · exact congrArg some (List.cons.inj h).1

/-- **What is matched is what was advertised** exactly if a supported capability was advertised with
its full key, and no word is matched, or taken for a symbolic reference, by a part of a key. -/
theorem matchesAdvertised_iff (version s : Bytes) : MatchesAdvertised version s
    ↔ advertised version s ≠ [] ∧ ∀ capa ∈ s.splitOn 0x20, HasFullKey version capa := by
  have hadvertised : (advertised version s).flatMap GotCapability.format
      = (s.splitOn 0x20).flatMap (advertisedText version) := List.flatMap_assoc
  have htext := @flatMap_eq_iff _ _ (matchedText version) (advertisedText version) (s.splitOn 0x20)
    fun capa _ => advertisedText_eq_or version capa
  have hsymrefs : symrefsOf s = (s.splitOn 0x20).filterMap foundSymref := by
    unfold symrefsOf
    congr 1
    funext capa
    unfold foundSymref isSymref keyOf valueOf
    simp only [decide_eq_true_eq]
  have hfound : (s.splitOn 0x20).filterMap foundSymref = advertisedSymrefs s
      ↔ ∀ capa ∈ s.splitOn 0x20, foundSymref capa = symref? capa := by
    unfold advertisedSymrefs
    rw [List.filterMap_eq_flatMap_toList, List.filterMap_eq_flatMap_toList, flatMap_eq_iff]
    · exact forall₂_congr fun capa _ => ⟨fun heq => toList_injective heq, congrArg _⟩
    · intro capa _
      unfold foundSymref symref?
      split
      · next h =>
        rw [if_pos]
        · exact Or.inl rfl
        · rw [isSymref, decide_eq_true_eq, h.2]
          exact ⟨h.1, by decide⟩
      · exact Or.inr rfl
  simp only [hasFullKey_iff, forall₂_and]
  rw [MatchesAdvertised, matchCapabilities_eq, Prod.mk.injEq, hsymrefs, hfound, hadvertised,
    ← htext,
    ← and_assoc]
  refine and_congr_left fun _ => ?_
  rw [Ne, ← flatMap_format_eq_nil_iff, hadvertised]
  unfold addText
  constructor
  · intro h
    split at h
    · cases h
    · next hne =>
      have heq : (s.splitOn 0x20).flatMap (matchedText version)
          = (s.splitOn 0x20).flatMap (advertisedText version) := Option.some.inj h
      exact ⟨heq ▸ hne, heq⟩
  · rintro ⟨hne, heq⟩
    rw [heq, if_neg hne]
    rfl

/-- **No capability in common**: there are no capabilities at all. -/
theorem not_matchesAdvertised_none : ¬ ∀ version s, MatchesAdvertised version s := by
  intro h
  exact absurd (congrArg Prod.fst (h (text "1") (text "multi_ack"))) (by decide)

end FetchPack

end Got

import Got.Lib.UniqueMatch
import Got.Pack.IdPrefix

/-!
# The object with a prefix

`got_repo_match_object_id_prefix` looks for the object of a type of which the id begins
with some digits. It first goes through the packs and then through a directory of loose
objects, and keeps the one id that was found so far. A loose object is asked for its type
only as long as there is none. If there is only one digit, the second one is filled in, from
`0` to `e`.

What is found is found by going through candidates, in the order in which they are
`searched`, and so it is right if nothing that was left out makes a difference, and no
loose object of another type (`matchObjectIdPrefix_iff`).
-/

namespace Got

open Numeral UniqueMatch
open ObjectFile (gotSha1DigestToStr gotParseSha1Digest gotParseSha1Digest_append)

def GOT_OBJ_TYPE_ANY : UInt8 := 0

/-- **A pack**, with the word in front of the fan-out table of its index. -/
structure StoredPack where
  packidx : Packidx
  wordBefore : UInt32
  consistent : ConsistentIdx packidx

/-- **A repository**: its packs and its loose objects, in the order in which directories
are read, and the types of objects. -/
structure ObjectStore where
  packs : List StoredPack
  loose : List Sha1
  typeOf : Sha1 → UInt8

/-- The names in a directory of loose objects: what is left of their digits. -/
def ObjectStore.looseNames (repo : ObjectStore) (objectDir : Bytes) : List Bytes :=
  (repo.loose.filter (objectDir <+: gotSha1DigestToStr ·)).map fun id =>
    (gotSha1DigestToStr id).drop 2

section Match

variable (repo : ObjectStore) (objType : UInt8)

/-- The loop over ids in packs. -/
def matchQids : List Sha1 → Option Sha1 → Except GotErr (Option Sha1)
  | [], uniqueId => .ok uniqueId
  | id :: qids, uniqueId =>
    if objType ≠ GOT_OBJ_TYPE_ANY ∧ repo.typeOf id ≠ objType then matchQids qids uniqueId
    else
      match uniqueId with
      | none => matchQids qids (some id)
      | some u => if u = id then matchQids qids (some u) else .error .ambiguousId

/-- The loop over packs. The list of what is matched is empty again at each of them, as
`got_packidx_match_id_str_prefix` initialises it. -/
def matchPacks (idStrPrefix : Bytes) :
    List StoredPack → Option Sha1 → Except GotErr (Option Sha1)
  | [], uniqueId => .ok uniqueId
  | pack :: packs, uniqueId => do
    let matchedIds ← gotPackidxMatchIdStrPrefix pack.packidx pack.wordBefore idStrPrefix
    let uniqueId ← matchQids repo objType matchedIds uniqueId
    matchPacks idStrPrefix packs uniqueId

/-- **`match_packed_object`** -/
def matchPackedObject (idStrPrefix : Bytes) (uniqueId : Option Sha1) :
    Except GotErr (Option Sha1) :=
  matchPacks repo objType idStrPrefix repo.packs uniqueId

/-- The loop over the names in a directory of loose objects. -/
def matchNames (objectDir idStrPrefix : Bytes) :
    List Bytes → Option Sha1 → Except GotErr (Option Sha1)
  | [], uniqueId => .ok uniqueId
  | name :: names, uniqueId =>
    let idStr := objectDir ++ name
    match gotParseSha1Digest idStr with
    | none => matchNames objectDir idStrPrefix names uniqueId
    | some id =>
      if strncmp idStr idStrPrefix idStrPrefix.length ≠ .eq then
        matchNames objectDir idStrPrefix names uniqueId
      else
        match uniqueId with
        | none =>
          if objType ≠ GOT_OBJ_TYPE_ANY ∧ repo.typeOf id ≠ objType then
            matchNames objectDir idStrPrefix names none
          else matchNames objectDir idStrPrefix names (some id)
        | some u =>
          if u = id then matchNames objectDir idStrPrefix names (some u)
          else .error .ambiguousId

/-- **`match_loose_object`** -/
def matchLooseObject (objectDir idStrPrefix : Bytes) (uniqueId : Option Sha1) :
    Except GotErr (Option Sha1) :=
  matchNames repo objType objectDir idStrPrefix (repo.looseNames objectDir) uniqueId

/-- The loop over the second digit. -/
def matchDigits (idStrPrefix : Bytes) : List ℕ → Option Sha1 → Except GotErr (Option Sha1)
  | [], uniqueId => .ok uniqueId
  | i :: is, uniqueId => do
    let objectDir := idStrPrefix ++ [digit i]
    let uniqueId ← matchPackedObject repo objType objectDir uniqueId
    let uniqueId ← matchLooseObject repo objType objectDir idStrPrefix uniqueId
    matchDigits idStrPrefix is uniqueId

/-- All that is searched. -/
def matchIds (idStrPrefix : Bytes) : Except GotErr (Option Sha1) :=
  if 2 ≤ idStrPrefix.length then do
    let uniqueId ← matchPackedObject repo objType idStrPrefix none
    matchLooseObject repo objType (idStrPrefix.take 2) idStrPrefix uniqueId
  else if idStrPrefix.length = 1 then
    matchDigits repo objType idStrPrefix (List.range 0xf) none
  else .error (.badObjIdStr idStrPrefix)

/-- **`got_repo_match_object_id_prefix`** -/
def gotRepoMatchObjectIdPrefix (idStrPrefix : Bytes) : Except GotErr Sha1 :=
  if idStrPrefix.any fun c => (digitValue 16 c).isNone then .error (.badObjIdStr idStrPrefix)
  else
    match matchIds repo objType idStrPrefix with
    | .error e => .error e
    | .ok none => .error (.noObjPath idStrPrefix)
    | .ok (some id) => .ok id

end Match

/-! ## What is searched -/

section Searched

variable (repo : ObjectStore) (objType : UInt8)

/-- An object is of the type that is asked for. -/
def ObjectStore.wanted (id : Sha1) : Bool :=
  objType = GOT_OBJ_TYPE_ANY ∨ repo.typeOf id = objType

/-- The ids that are found in a pack. -/
def StoredPack.foundIds (idStrPrefix : Bytes) (pack : StoredPack) : List Sha1 :=
  (pack.packidx.sortedIds.drop (skipped pack.wordBefore idStrPrefix)).filter
    (idStrPrefix <+: gotSha1DigestToStr ·)

/-- The candidates in the packs. -/
def ObjectStore.packedCandidates (packPrefix : Bytes) : List (Candidate Sha1) :=
  (repo.packs.flatMap (StoredPack.foundIds packPrefix)).map (⟨·, false⟩)

/-- The candidates in a directory of loose objects. -/
def ObjectStore.looseCandidates (objectDir idStrPrefix : Bytes) : List (Candidate Sha1) :=
  ((repo.loose.filter (objectDir <+: gotSha1DigestToStr ·)).filter
    (idStrPrefix <+: gotSha1DigestToStr ·)).map (⟨·, true⟩)

/-- **The candidates**, in the order in which they are searched. -/
def ObjectStore.searched (idStrPrefix : Bytes) : List (Candidate Sha1) :=
  if 2 ≤ idStrPrefix.length then
    repo.packedCandidates idStrPrefix ++ repo.looseCandidates (idStrPrefix.take 2) idStrPrefix
  else
    (List.range 0xf).flatMap fun i => repo.packedCandidates (idStrPrefix ++ [digit i])
      ++ repo.looseCandidates (idStrPrefix ++ [digit i]) idStrPrefix

variable {repo objType} {idStrPrefix objectDir : Bytes} {uniqueId : Option Sha1}

theorem not_wanted_iff (id : Sha1) :
    (objType ≠ GOT_OBJ_TYPE_ANY ∧ repo.typeOf id ≠ objType) ↔ ¬repo.wanted objType id := by
  unfold ObjectStore.wanted
  rw [decide_eq_true_iff, not_or]

/-- **Ids in packs** are candidates that are asked for their type. -/
theorem matchQids_eq (qids : List Sha1) (uniqueId : Option Sha1) :
    matchQids repo objType qids uniqueId
      = meetAll (repo.wanted objType) .ambiguousId (qids.map (⟨·, false⟩)) uniqueId := by
  induction qids generalizing uniqueId with
  | nil => rfl
  | cons id qids ih =>
    rw [List.map_cons, meetAll]
    by_cases hwanted : repo.wanted objType id
    · have hskip := mt (not_wanted_iff id).mp (not_not_intro hwanted)
      cases uniqueId with
      | none =>
        rw [matchQids, if_neg hskip, meet, if_pos hwanted]
        exact ih _
      | some u =>
        rw [matchQids, if_neg hskip, meet]
        by_cases hu : u = id
        · rw [if_pos hu, if_neg fun h => h.1 hu.symm]
          exact ih _
        · rw [if_neg hu, if_pos ⟨fun h => hu h.symm, Or.inl hwanted⟩]
    · have hskip := (not_wanted_iff id).mpr hwanted
      cases uniqueId with
      | none =>
        rw [matchQids, if_pos hskip, meet, if_neg hwanted]
        exact ih _
      | some u =>
        have hagrees : ¬StandsAgainst (repo.wanted objType) u (⟨id, false⟩ : Candidate Sha1) :=
          fun h => h.2.elim hwanted Bool.false_ne_true
        rw [matchQids, if_pos hskip, meet, if_neg hagrees]
        exact ih _

/-- **Packs** are searched for candidates. -/
theorem matchPacks_eq (hhex : HexPrefix idStrPrefix) (packs : List StoredPack)
    (uniqueId : Option Sha1) : matchPacks repo objType idStrPrefix packs uniqueId
      = meetAll (repo.wanted objType) .ambiguousId
        ((packs.flatMap (StoredPack.foundIds idStrPrefix)).map (⟨·, false⟩)) uniqueId := by
  induction packs generalizing uniqueId with
  | nil => rfl
  | cons pack packs ih =>
    rw [matchPacks, gotPackidxMatchIdStrPrefix_eq pack.consistent hhex, ok_bind, matchQids_eq,
      List.flatMap_cons, List.map_append, meetAll_append]
    exact congrArg (meetAll _ _ _ uniqueId >>= ·) (funext ih)

theorem matchPackedObject_eq (hhex : HexPrefix idStrPrefix) (uniqueId : Option Sha1) :
    matchPackedObject repo objType idStrPrefix uniqueId
      = meetAll (repo.wanted objType) .ambiguousId (repo.packedCandidates idStrPrefix) uniqueId :=
  matchPacks_eq hhex repo.packs uniqueId

/-- **The names in a directory** are candidates as far as they have the prefix. -/
theorem matchNames_eq (hdir : objectDir.length = 2) {ids : List Sha1}
    (h : ∀ id ∈ ids, objectDir <+: gotSha1DigestToStr id) (uniqueId : Option Sha1) :
    matchNames repo objType objectDir idStrPrefix
        (ids.map fun id => (gotSha1DigestToStr id).drop 2) uniqueId
      = meetAll (repo.wanted objType) .ambiguousId
        ((ids.filter (idStrPrefix <+: gotSha1DigestToStr ·)).map (⟨·, true⟩)) uniqueId := by
  induction ids generalizing uniqueId with
  | nil => rfl
  | cons id ids ih =>
    have hname : objectDir ++ (gotSha1DigestToStr id).drop 2 = gotSha1DigestToStr id := by
      obtain ⟨rest, hrest⟩ := h id List.mem_cons_self
      rw [← hrest, ← hdir, List.drop_left]
    have hparse : gotParseSha1Digest (gotSha1DigestToStr id) = some id := by
      have happend := gotParseSha1Digest_append id []
      rw [List.append_nil] at happend
      exact happend
    have hrest := ih fun id' hid' => h id' (List.mem_cons_of_mem id hid')
    rw [List.map_cons]
    by_cases hprefix : idStrPrefix <+: gotSha1DigestToStr id
    · have hcmp := strncmp_eq_iff.mpr hprefix
      rw [List.filter_cons_of_pos (by simpa using hprefix), List.map_cons, meetAll]
      cases uniqueId with
      | none =>
        rw [matchNames, hname, hparse]
        dsimp only
        rw [hcmp, if_neg (not_not_intro rfl), meet]
        by_cases hwanted : repo.wanted objType id
        · rw [if_neg (mt (not_wanted_iff id).mp (not_not_intro hwanted)), if_pos hwanted]
          exact hrest _
        · rw [if_pos ((not_wanted_iff id).mpr hwanted), if_neg hwanted]
          exact hrest _
      | some u =>
        rw [matchNames, hname, hparse]
        dsimp only
        rw [hcmp, if_neg (not_not_intro rfl), meet]
        by_cases hu : u = id
        · rw [if_pos hu, if_neg fun h => h.1 hu.symm]
          exact hrest _
        · rw [if_neg hu, if_pos ⟨fun h => hu h.symm, Or.inr rfl⟩]
    · have hcmp := mt strncmp_eq_iff.mp hprefix
      rw [List.filter_cons_of_neg (by simpa using hprefix)]
      cases uniqueId with
      | none =>
        rw [matchNames, hname, hparse]
        exact (if_pos hcmp).trans (hrest _)
      | some u =>
        rw [matchNames, hname, hparse]
        exact (if_pos hcmp).trans (hrest _)

theorem matchLooseObject_eq (hdir : objectDir.length = 2) (uniqueId : Option Sha1) :
    matchLooseObject repo objType objectDir idStrPrefix uniqueId
      = meetAll (repo.wanted objType) .ambiguousId (repo.looseCandidates objectDir idStrPrefix)
        uniqueId :=
  matchNames_eq hdir (fun _ hid => of_decide_eq_true (List.mem_filter.mp hid).2) uniqueId

/-- With a second digit, one digit is a prefix. -/
theorem hexPrefix_concat {c : UInt8} (hc : (digitValue 16 c).isSome) {i : ℕ} (hi : i < 0xf) :
    HexPrefix ([c] ++ [digit i]) where
  two_le := Nat.le_refl 2
  isxdigit := by
    intro c' hc'
    obtain rfl | hc' := List.mem_cons.mp hc'
    · exact hc
    · rw [List.mem_singleton.mp hc', digitValue_digit_sixteen (by omega)]
      rfl

/-- Searching by the digits below a prefix meets every candidate, pack by pack and then loose. -/
theorem matchDigits_eq {c : UInt8} (hc : (digitValue 16 c).isSome) {is : List ℕ}
    (his : ∀ i ∈ is, i < 0xf) (uniqueId : Option Sha1) :
    matchDigits repo objType [c] is uniqueId
      = meetAll (repo.wanted objType) .ambiguousId
        (is.flatMap fun i => repo.packedCandidates ([c] ++ [digit i])
          ++ repo.looseCandidates ([c] ++ [digit i]) [c]) uniqueId := by
  induction is generalizing uniqueId with
  | nil => rfl
  | cons i is ih =>
    have hrest := ih fun j hj => his j (List.mem_cons_of_mem i hj)
    rw [matchDigits, matchPackedObject_eq (hexPrefix_concat hc (his i List.mem_cons_self)),
      List.flatMap_cons, meetAll_append, meetAll_append, bind_assoc]
    refine congrArg (meetAll _ _ _ uniqueId >>= ·) (funext fun u => ?_)
    rw [matchLooseObject_eq rfl]
    exact congrArg (meetAll _ _ _ u >>= ·) (funext hrest)

/-- **All that is found** is found among the candidates. -/
theorem gotRepoMatchObjectIdPrefix_eq (hne : idStrPrefix ≠ [])
    (hhex : ∀ c ∈ idStrPrefix, (digitValue 16 c).isSome) :
    gotRepoMatchObjectIdPrefix repo objType idStrPrefix
      = found (.noObjPath idStrPrefix) (meetAll (repo.wanted objType) .ambiguousId
        (repo.searched idStrPrefix) none) := by
  have hids : matchIds repo objType idStrPrefix
      = meetAll (repo.wanted objType) .ambiguousId (repo.searched idStrPrefix) none := by
    unfold matchIds ObjectStore.searched
    by_cases hlong : 2 ≤ idStrPrefix.length
    · rw [if_pos hlong, if_pos hlong, meetAll_append, matchPackedObject_eq ⟨hlong, hhex⟩]
      refine congrArg (meetAll _ _ _ none >>= ·) (funext fun u => matchLooseObject_eq ?_ u)
      rw [List.length_take, Nat.min_eq_left hlong]
    · have hpos := List.length_pos_iff.mpr hne
      obtain ⟨c, rfl⟩ := List.length_eq_one_iff.mp (show idStrPrefix.length = 1 by omega)
      rw [if_neg hlong, if_neg hlong, if_pos (List.length_singleton)]
      exact matchDigits_eq (hhex c (List.mem_singleton_self c))
        (fun i hi => List.mem_range.mp hi) none
  have hdigits : ¬(idStrPrefix.any fun c => (digitValue 16 c).isNone) = true := by
    rw [List.any_eq_true]
    rintro ⟨c, hc, hnone⟩
    have hc := hhex c hc
    rw [Option.isNone_iff_eq_none.mp hnone] at hc
    cases hc
  unfold gotRepoMatchObjectIdPrefix
  rw [if_neg hdigits, hids]
  cases meetAll (repo.wanted objType) GotErr.ambiguousId (repo.searched idStrPrefix) none with
  | error e => rfl
  | ok u => cases u <;> rfl

end Searched

/-! ## What should be found -/

/-- An object is stored, once or several times. -/
def ObjectStore.Stored (repo : ObjectStore) (id : Sha1) : Prop :=
  id ∈ repo.loose ∨ ∃ pack ∈ repo.packs, id ∈ pack.packidx.sortedIds

/-- **An object of the type that is asked for**, with an id that begins with the prefix. -/
def ObjectStore.Matches (repo : ObjectStore) (objType : UInt8) (idStrPrefix : Bytes) (id : Sha1) :
    Prop :=
  repo.Stored id ∧ StartsWith idStrPrefix id ∧ repo.wanted objType id

section Spec

variable {repo : ObjectStore} {objType : UInt8} {idStrPrefix packPrefix objectDir : Bytes}
  {c : Candidate Sha1}

/-- What is a candidate among packed ids is stored, and has the prefix. -/
theorem stored_of_mem_packedCandidates (h : c ∈ repo.packedCandidates packPrefix) :
    repo.Stored c.id ∧ packPrefix <+: gotSha1DigestToStr c.id := by
  obtain ⟨id, hid, rfl⟩ := List.mem_map.mp h
  obtain ⟨pack, hpack, hid⟩ := List.mem_flatMap.mp hid
  obtain ⟨hmem, hprefix⟩ := List.mem_filter.mp hid
  exact ⟨Or.inr ⟨pack, hpack, List.mem_of_mem_drop hmem⟩, of_decide_eq_true hprefix⟩

theorem stored_of_mem_looseCandidates (h : c ∈ repo.looseCandidates objectDir idStrPrefix) :
    repo.Stored c.id ∧ idStrPrefix <+: gotSha1DigestToStr c.id := by
  obtain ⟨id, hid, rfl⟩ := List.mem_map.mp h
  obtain ⟨hmem, hprefix⟩ := List.mem_filter.mp hid
  exact ⟨Or.inl (List.mem_filter.mp hmem).1, of_decide_eq_true hprefix⟩

/-- **A candidate is stored**, and has the prefix as it is given. -/
theorem stored_of_mem_searched (h : c ∈ repo.searched idStrPrefix) :
    repo.Stored c.id ∧ idStrPrefix <+: gotSha1DigestToStr c.id := by
  unfold ObjectStore.searched at h
  split at h
  · obtain h | h := List.mem_append.mp h
    · exact stored_of_mem_packedCandidates h
    · exact stored_of_mem_looseCandidates h
  · obtain ⟨i, -, h⟩ := List.mem_flatMap.mp h
    obtain h | h := List.mem_append.mp h
    · obtain ⟨hstored, hprefix⟩ := stored_of_mem_packedCandidates h
      exact ⟨hstored, (List.prefix_append _ _).trans hprefix⟩
    · exact stored_of_mem_looseCandidates h

/-- **When the object with a prefix is found**, if it is the only one, and that there are
several, or none: if there is none; or if the first candidate of the right type has one
behind it that stands against it – of this type, or loose – exactly if there is another
object with the prefix and of the right type. -/
theorem matchObjectIdPrefix_iff (hne : idStrPrefix ≠ [])
    (hhex : ∀ c ∈ idStrPrefix, (digitValue 16 c).isSome) :
    Finds .ambiguousId (.noObjPath idStrPrefix) (repo.Matches objType idStrPrefix)
        (gotRepoMatchObjectIdPrefix repo objType idStrPrefix)
      ↔ (∀ id, ¬repo.Matches objType idStrPrefix id)
        ∨ ∃ before c after, repo.searched idStrPrefix = before ++ c :: after
          ∧ (∀ b ∈ before, ¬repo.wanted objType b.id) ∧ repo.wanted objType c.id
          ∧ ((∃ id, repo.Matches objType idStrPrefix id ∧ id ≠ c.id)
            ↔ ∃ a ∈ after, StandsAgainst (repo.wanted objType) c.id a) := by
  rw [gotRepoMatchObjectIdPrefix_eq hne hhex]
  refine finds_iff (fun h => by cases h) fun c hc hwanted => ?_
  obtain ⟨hstored, hprefix⟩ := stored_of_mem_searched hc
  refine ⟨hstored, ?_, hwanted⟩
  unfold StartsWith
  rw [map_tolower_of_begins hprefix]
  exact hprefix

end Spec

/-! ### Loose objects -/

/-- Another id that begins with `ab`. -/
def otherAbId : Sha1 := ⟨0xab :: List.replicate 19 0xcd, rfl⟩

/-- An id that begins with `af`. -/
def afId : Sha1 := ⟨List.replicate 20 0xaf, rfl⟩

/-- Two loose objects, of which one is a blob and the other one a commit. -/
def twoLoose : ObjectStore :=
  ⟨[], [ObjectFile.someId, otherAbId],
    fun id => if id = otherAbId then GOT_OBJ_TYPE_COMMIT else GOT_OBJ_TYPE_BLOB⟩

/-- One loose blob. -/
def oneLoose (id : Sha1) : ObjectStore := ⟨[], [id], fun _ => GOT_OBJ_TYPE_BLOB⟩

/-- The theorem at work on a repository of one loose object. -/
theorem matchObjectIdPrefix_someId :
    ([0x61, 0x62] : Bytes) ≠ [] ∧
      (Finds .ambiguousId (.noObjPath [0x61, 0x62])
          ((oneLoose ObjectFile.someId).Matches GOT_OBJ_TYPE_BLOB [0x61, 0x62])
          (gotRepoMatchObjectIdPrefix (oneLoose ObjectFile.someId) GOT_OBJ_TYPE_BLOB [0x61, 0x62])
        ↔ (∀ id, ¬(oneLoose ObjectFile.someId).Matches GOT_OBJ_TYPE_BLOB [0x61, 0x62] id)
          ∨ ∃ before c after, (oneLoose ObjectFile.someId).searched [0x61, 0x62]
            = before ++ c :: after
            ∧ (∀ b ∈ before, ¬(oneLoose ObjectFile.someId).wanted GOT_OBJ_TYPE_BLOB b.id)
            ∧ (oneLoose ObjectFile.someId).wanted GOT_OBJ_TYPE_BLOB c.id
            ∧ ((∃ id, (oneLoose ObjectFile.someId).Matches GOT_OBJ_TYPE_BLOB [0x61, 0x62] id
              ∧ id ≠ c.id)
              ↔ ∃ a ∈ after,
                StandsAgainst ((oneLoose ObjectFile.someId).wanted GOT_OBJ_TYPE_BLOB) c.id a)) :=
  ⟨List.cons_ne_nil _ _, matchObjectIdPrefix_iff (List.cons_ne_nil _ _) (by decide +kernel)⟩

/-- **A loose object of another type** makes the only blob ambiguous, and one digit does not find
an object of which the second digit is `f`. -/
theorem not_finds_loose :
    (gotRepoMatchObjectIdPrefix twoLoose GOT_OBJ_TYPE_BLOB [0x61, 0x62] = .error .ambiguousId
        ∧ ¬Finds .ambiguousId (.noObjPath [0x61, 0x62])
          (twoLoose.Matches GOT_OBJ_TYPE_BLOB [0x61, 0x62])
          (gotRepoMatchObjectIdPrefix twoLoose GOT_OBJ_TYPE_BLOB [0x61, 0x62]))
      ∧ gotRepoMatchObjectIdPrefix (oneLoose afId) GOT_OBJ_TYPE_ANY [0x61]
          = .error (.noObjPath [0x61])
        ∧ ¬Finds .ambiguousId (.noObjPath [0x61]) ((oneLoose afId).Matches GOT_OBJ_TYPE_ANY [0x61])
          (gotRepoMatchObjectIdPrefix (oneLoose afId) GOT_OBJ_TYPE_ANY [0x61]) := by
  have htwo : gotRepoMatchObjectIdPrefix twoLoose GOT_OBJ_TYPE_BLOB [0x61, 0x62]
      = .error .ambiguousId := rfl
  have hone : gotRepoMatchObjectIdPrefix (oneLoose afId) GOT_OBJ_TYPE_ANY [0x61]
      = .error (.noObjPath [0x61]) := rfl
  refine ⟨⟨htwo, fun h => ?_⟩, hone, fun h => ?_⟩
  · have hsome : twoLoose.Matches GOT_OBJ_TYPE_BLOB [0x61, 0x62] ObjectFile.someId :=
      ⟨Or.inl List.mem_cons_self, by decide, by decide⟩
    have hok := (h.one ObjectFile.someId).mpr ⟨hsome, ?_⟩
    · rw [htwo] at hok
      cases hok
    · rintro id ⟨hid | ⟨pack, hpack, -⟩, -, hwanted⟩
      · obtain rfl | hid := List.mem_cons.mp hid
        · rfl
        · rw [List.mem_singleton.mp hid] at hwanted
          exact absurd hwanted (by decide)
      · exact absurd hpack List.not_mem_nil
  · exact h.none.mp hone afId ⟨Or.inl List.mem_cons_self, by decide, by decide⟩

end Got

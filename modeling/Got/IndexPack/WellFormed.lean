import Got.IndexPack.Tables

/-!
# Well-formed packs

A pack is well formed if each of its objects has a content: a plain object the
one that is stored, a delta the one its program makes of the content of its
base, which is in the same pack, named by its position or by its id. There may
be several objects with the same id, and then the delta applies to all of
them. The bases are acyclic: there is an order in which each comes before the
deltas that name it.

For such a pack it is a matter of the index whether a delta can be resolved.
From the delta, links by position lead to an object that is plain or names its
base by an id, and if the index has that id, nothing else can go wrong: what
the index has was resolved before (`resolveDeltifiedObject_of_resolvable`). If the
index does not have the id, the delta is not resolved
(`resolvable_of_resolveDeltifiedObject`).
-/

namespace Got

open CopyProgram SortedTable Links

/-- What is stored of an object, and what it stands for. -/
structure Contents where
  /-- The content of the object at a position. -/
  content : ℕ → Bytes
  /-- Its type. -/
  kind : ℕ → UInt8
  /-- Its place in an order in which bases come before their deltas. -/
  rank : ℕ → ℕ

/-- The header and content of the object at a position, hashed. -/
def Contents.objectId (plat : Platform) (c : Contents) (off : ℕ) : Sha1 :=
  plat.sha1 (objectHeader
    (match getObjTypeLabel (c.kind off) with
      | .ok label => label
      | .error _ => []) (c.content off).length ++ c.content off)

/-- **A delta applies to a base**: its stream, at `pos`, can be read, and its
program makes the content of the one object of that of the other. -/
structure Applies (plat : Platform) (pack : Pack) (c : Contents) (o pos b : ℕ) : Prop where
  rank_lt : c.rank b < c.rank o
  kind_eq : c.kind o = c.kind b
  pos_lt : pos < pack.filesize
  program : ∃ d is, plat.inflate (pack.file.drop pos) = .ok d
    ∧ readDelta d = some (size is, is) ∧ InBounds (c.content b).length is
    ∧ c.content o = runList (c.content b) is

/-- **A well-formed pack**, with the objects the first pass finds in it, in
the order of the file, and with what they stand for. -/
structure WellFormedPack (plat : Platform) where
  pack : Pack
  objects : List IndexedObject
  contents : Contents
  read : ∀ o ∈ objects, readPackedObject plat pack o.offset = .ok o
  ordered : objects.Pairwise (fun a b => a.offset < b.offset)
  length_lt : objects.length < 2 ^ 31
  filesize_lt : pack.filesize < 2 ^ 63
  rank_lt : ∀ o ∈ objects, contents.rank o.offset < objects.length
  plain : ∀ o ∈ objects, isPlainType o.type →
    plat.inflate (pack.file.drop (o.offset + o.tslen)) = .ok (contents.content o.offset)
      ∧ contents.kind o.offset = o.type
      ∧ (contents.content o.offset).length = o.size.toNat
      ∧ o.offset + o.tslen < pack.filesize
  offsetDelta : ∀ o ∈ objects, o.type = GOT_OBJ_TYPE_OFFSET_DELTA → ∃ b ∈ objects, ∃ n,
    gotPackParseOffsetDelta pack o.offset o.tslen = .ok (b.offset, n)
      ∧ Applies plat pack contents o.offset (o.offset + o.tslen + n) b.offset
  refDelta : ∀ o ∈ objects, o.type = GOT_OBJ_TYPE_REF_DELTA → ∃ id,
    pack.idAt (o.offset + o.tslen) = .ok id
      ∧ (∃ b ∈ objects, contents.objectId plat b.offset = id)
      ∧ ∀ b ∈ objects, contents.objectId plat b.offset = id →
        Applies plat pack contents o.offset (o.offset + o.tslen + SHA1_DIGEST_LENGTH) b.offset

variable {plat : Platform} (w : WellFormedPack plat)

/-- The id of an object of the pack. -/
def WellFormedPack.idOf (o : IndexedObject) : Sha1 := w.contents.objectId plat o.offset

/-- **Whether a delta can be resolved** with an index that has the ids `known`:
the links by position lead to a plain object, or to a delta whose base id is
known. -/
inductive Resolvable (known : Sha1 → Prop) : IndexedObject → Prop
  | plain {o : IndexedObject} : isPlainType o.type → Resolvable known o
  | offsetDelta {o b : IndexedObject} {n : ℕ} : o.type = GOT_OBJ_TYPE_OFFSET_DELTA →
    gotPackParseOffsetDelta w.pack o.offset o.tslen = .ok (b.offset, n) → b ∈ w.objects →
    Resolvable known b → Resolvable known o
  | refDelta {o : IndexedObject} {id : Sha1} : o.type = GOT_OBJ_TYPE_REF_DELTA →
    w.pack.idAt (o.offset + o.tslen) = .ok id → known id → Resolvable known o

/-! ## What the first pass says of an object -/

/-- A header keeps the offset it was read at. -/
theorem offset_of_parseTypeAndSizeFrom {pack : Pack} {off n i : ℕ} {t : UInt8} {s : UInt64}
    {h : ObjHdr} (hp : parseTypeAndSizeFrom pack off n i t s = .ok h) : h.offset = off := by
  induction n generalizing i t s with
  | zero => exact nomatch hp
  | succ n ih =>
    obtain ⟨sizeN, -, hp⟩ := bind_eq_ok_iff.mp hp
    dsimp only at hp
    split at hp
    · exact ih hp
    · rw [← Except.ok.inj hp]

/-- A header can be read only inside the file. -/
theorem parse_spec {pack : Pack} {off : ℕ} {h : ObjHdr}
    (hp : gotPackParseObjectTypeAndSize pack off = .ok h) :
    off < pack.filesize ∧ h.offset = off := by
  unfold gotPackParseObjectTypeAndSize at hp
  split at hp
  · exact nomatch hp
  · next hlt => exact ⟨Nat.not_le.mp hlt, offset_of_parseTypeAndSizeFrom hp⟩

/-- What is known of an object after the first pass. -/
structure FirstPass (plat : Platform) (pack : Pack) (o : IndexedObject) : Prop where
  parse : gotPackParseObjectTypeAndSize pack o.offset = .ok o.toObjHdr
  valid : o.valid = isPlainType o.type
  type : isPlainType o.type ∨ o.type = GOT_OBJ_TYPE_REF_DELTA ∨ o.type = GOT_OBJ_TYPE_OFFSET_DELTA
  id : o.id = if isPlainType o.type then
      plat.sha1 (objectHeader
        (match getObjTypeLabel o.type with
          | .ok label => label
          | .error _ => []) o.size.toNat
        ++ (match plat.inflate (pack.file.drop (o.offset + o.tslen)) with
          | .ok data => data
          | .error _ => []))
    else unknownId

/-- What the first pass reads of an object is what its header says. -/
theorem firstPass_of_read {pack : Pack} {off : ℕ} {o : IndexedObject}
    (h : readPackedObject plat pack off = .ok o) : FirstPass plat pack o := by
  obtain ⟨hdr, hparse, h⟩ := bind_eq_ok_iff.mp h
  have hoff := (parse_spec hparse).2
  rw [← hoff] at hparse
  dsimp only at h
  split at h
  · next hp =>
    obtain ⟨data, hdata, h⟩ := bind_eq_ok_iff.mp h
    obtain ⟨label, hlabel, h⟩ := bind_eq_ok_iff.mp h
    obtain rfl := Except.ok.inj h
    exact ⟨hparse, hp.symm, Or.inl hp, by rw [if_pos hp, hlabel, hdata]⟩
  next hp =>
  split at h
  · next ht =>
    split at h
    · exact nomatch h
    obtain ⟨id, -, h⟩ := bind_eq_ok_iff.mp h
    obtain ⟨data, -, h⟩ := bind_eq_ok_iff.mp h
    obtain rfl := Except.ok.inj h
    exact ⟨hparse, (Bool.eq_false_of_not_eq_true hp).symm, Or.inr (Or.inl ht), by rw [if_neg hp]⟩
  next ht =>
  split at h
  · next ht' =>
    obtain ⟨r, -, h⟩ := bind_eq_ok_iff.mp h
    obtain ⟨data, -, h⟩ := bind_eq_ok_iff.mp h
    obtain rfl := Except.ok.inj h
    exact ⟨hparse, (Bool.eq_false_of_not_eq_true hp).symm, Or.inr (Or.inr ht'), by rw [if_neg hp]⟩
  · exact nomatch h

variable {w}

theorem WellFormedPack.firstPass {o : IndexedObject} (ho : o ∈ w.objects) :
    FirstPass plat w.pack o := firstPass_of_read (w.read o ho)

/-- An object is told by its position. -/
theorem WellFormedPack.eq_of_offset {a b : IndexedObject} (ha : a ∈ w.objects)
    (hb : b ∈ w.objects) (h : a.offset = b.offset) : a = b := by
  have hra := w.read a ha
  rw [h, w.read b hb] at hra
  exact (Except.ok.inj hra).symm

/-- The id of a plain object is known after the first pass. -/
theorem WellFormedPack.id_eq_idOf {o : IndexedObject} (ho : o ∈ w.objects)
    (hp : isPlainType o.type) : o.id = w.idOf o := by
  obtain ⟨hdata, hkind, hlen, -⟩ := w.plain o ho hp
  rw [(WellFormedPack.firstPass ho).id, if_pos hp, hdata, WellFormedPack.idOf, Contents.objectId,
    hkind, hlen]

/-! ## The chain of an object -/

/-- **A chain restores an object**: it begins with a plain object of its type,
and its programs, one after the other, make its content. -/
structure Restores (w : WellFormedPack plat) (o : IndexedObject) (chain : DeltaChain) : Prop where
  chain : ∃ base rest data iss, chain = base :: rest ∧ isPlainType base.type
    ∧ base.type = w.contents.kind o.offset ∧ inflateBase plat.inflate w.pack base = .ok data
    ∧ (∀ d ∈ rest, ¬isPlainType d.type) ∧ (¬isPlainType o.type → rest ≠ [])
    ∧ chainPrograms plat.inflate w.pack rest = some iss ∧ Feasible data.length iss
    ∧ w.contents.content o.offset = runAll data iss

/-- A plain object restores itself. -/
theorem restores_plain {o : IndexedObject} (ho : o ∈ w.objects) (hp : isPlainType o.type) :
    Restores w o (addDelta [] o.toObjHdr 0) := by
  obtain ⟨hdata, hkind, -, hlt⟩ := w.plain o ho hp
  refine ⟨⟨_, [], w.contents.content o.offset, [], rfl, hp, hkind.symm, ?_,
    fun d hd => absurd hd List.not_mem_nil, fun hn => absurd hp hn, rfl, trivial, rfl⟩⟩
  rw [inflateBase, if_neg (not_not.mpr hp), if_neg (Nat.not_le.mpr hlt)]
  exact hdata

/-- Mapping a list with one more at its end. -/
theorem mapM_append_singleton {α β : Type} {f : α → Option β} {as : List α} {bs : List β} {a : α}
    {b : β} (h : as.mapM f = some bs) (hb : f a = some b) :
    (as ++ [a]).mapM f = some (bs ++ [b]) := by
  induction as generalizing bs with
  | nil =>
    obtain rfl : [] = bs := Option.some.inj h
    exact mapM_cons_eq_some_iff.mpr ⟨b, [], hb, rfl, rfl⟩
  | cons a' as ih =>
    obtain ⟨b', bs', hb', hbs, rfl⟩ := mapM_cons_eq_some_iff.mp h
    exact mapM_cons_eq_some_iff.mpr ⟨b', bs' ++ [b], hb', ih hbs, rfl⟩

/-- **One more delta at the end of a chain.** -/
theorem restores_append {o b : IndexedObject} {pos : ℕ} {chain : DeltaChain}
    (hd : ¬isPlainType o.type) (ha : Applies plat w.pack w.contents o.offset pos b.offset)
    (h : Restores w b chain) : Restores w o (chain ++ addDelta [] o.toObjHdr pos) := by
  obtain ⟨base, rest, data, iss, rfl, hplain, hkind, hdata, hdeltas, -, hiss, hf, hc⟩ := h.chain
  obtain ⟨d, is, hinf, hr, hb, hco⟩ := ha.program
  have hread : readDeltaData plat.inflate w.pack pos = .ok d := by
    rw [readDeltaData, if_neg (fun h => Nat.not_le.mpr ha.pos_lt h.2), hinf]
  refine ⟨⟨base, rest ++ addDelta [] o.toObjHdr pos, data, iss ++ [is], rfl, hplain,
    hkind.trans ha.kind_eq.symm, hdata, fun d hd' => ?_, fun _ => ?_,
    mapM_append_singleton hiss (deltaProgram_eq_some_iff.mpr ⟨d, hread, hr⟩),
    feasible_append_singleton hf (by rw [← hc]; exact hb), ?_⟩⟩
  · rcases List.mem_append.mp hd' with hd' | hd'
    · exact hdeltas d hd'
    · rw [List.mem_singleton.mp hd']
      exact hd
  · exact List.append_ne_nil_of_right_ne_nil rest (List.cons_ne_nil _ _)
  · rw [hco, hc, runAll, runAll, List.foldl_append]
    rfl

/-! ## Resolving with an index -/

/-- The ids an index lists. -/
def Known (es : List IdxEntry) (id : Sha1) : Prop := ∃ e ∈ es, e.1 = id

/-- **What the index lists are objects of the pack that could be resolved with
it.** -/
def ListsResolvable (w : WellFormedPack plat) (es : List IdxEntry) : Prop :=
  ∀ e ∈ es, ∃ o ∈ w.objects, e = (w.idOf o, o.offset) ∧ Resolvable w (Known es) o

/-- The link of an offset delta. -/
theorem offsetDeltaBase_eq {o b : IndexedObject} {n : ℕ} (hb : b ∈ w.objects)
    (hp : gotPackParseOffsetDelta w.pack o.offset o.tslen = .ok (b.offset, n))
    (hlt : o.offset + o.tslen + n < w.pack.filesize) (deltas : DeltaChain) :
    offsetDeltaBase w.pack deltas o.toObjHdr
      = (addDelta deltas o.toObjHdr (o.offset + o.tslen + n), .ok b.toObjHdr) := by
  have hparse := (WellFormedPack.firstPass hb).parse
  unfold offsetDeltaBase
  rw [hp]
  dsimp only
  rw [if_neg (Nat.not_le.mpr hlt), if_neg (Nat.not_le.mpr (parse_spec hparse).1), hparse]

/-- An id that can be read lies within the file. -/
theorem idAt_lt {pack : Pack} {i : ℕ} {id : Sha1} (h : pack.idAt i = .ok id) :
    i < pack.filesize := by
  unfold Pack.idAt at h
  dsimp only at h
  split at h
  · next hlen =>
    rw [List.length_take, List.length_drop] at hlen
    show i < pack.file.length
    unfold SHA1_DIGEST_LENGTH at hlen
    omega
  · exact nomatch h

/-- The link of a ref delta, which is looked up. -/
theorem refDeltaBase_eq {packidx : Packidx} {o b : IndexedObject} {id : Sha1} {i : ℕ}
    (hb : b ∈ w.objects) (hid : w.pack.idAt (o.offset + o.tslen) = .ok id)
    (hi : gotPackidxGetObjectIdx packidx id = .ok (some i))
    (hoff : getObjectOffset packidx i = .ok (some b.offset)) (deltas : DeltaChain) :
    refDeltaBase packidx w.pack deltas o.toObjHdr
      = (addDelta deltas o.toObjHdr (o.offset + o.tslen + SHA1_DIGEST_LENGTH),
        .ok b.toObjHdr) := by
  have hparse := (WellFormedPack.firstPass hb).parse
  unfold refDeltaBase
  rw [if_neg (Nat.not_le.mpr (idAt_lt hid)), hid]
  dsimp only
  rw [hi, ok_bind]
  dsimp only
  rw [hoff, ok_bind]
  dsimp only
  rw [if_neg (Nat.not_le.mpr (parse_spec hparse).1), hparse]

/-- Where a base id is not found, reading the link fails. -/
theorem refDeltaBase_of_none {packidx : Packidx} {o : IndexedObject} {id : Sha1}
    (deltas : DeltaChain) (hid : w.pack.idAt (o.offset + o.tslen) = .ok id)
    (hi : gotPackidxGetObjectIdx packidx id = .ok none) :
    refDeltaBase packidx w.pack deltas o.toObjHdr
      = (addDelta deltas o.toObjHdr (o.offset + o.tslen + SHA1_DIGEST_LENGTH), .error .noObj) := by
  unfold refDeltaBase
  rw [if_neg (Nat.not_le.mpr (idAt_lt hid)), hid]
  dsimp only
  rw [hi]
  rfl

/-- And so it does where the search for it fails. -/
theorem refDeltaBase_of_error {packidx : Packidx} {o : IndexedObject} {id : Sha1} {e : GotErr}
    (deltas : DeltaChain) (hid : w.pack.idAt (o.offset + o.tslen) = .ok id)
    (hi : gotPackidxGetObjectIdx packidx id = .error e) :
    refDeltaBase packidx w.pack deltas o.toObjHdr
      = (addDelta deltas o.toObjHdr (o.offset + o.tslen + SHA1_DIGEST_LENGTH), .error e) := by
  unfold refDeltaBase
  rw [if_neg (Nat.not_le.mpr (idAt_lt hid)), hid]
  dsimp only
  rw [hi]
  rfl

/-- **What can be resolved is resolved**, unless the index is too large for its
search. -/
theorem resolve_of_resolvable {packidx : Packidx} {es : List IdxEntry} (hl : Lists packidx es)
    (hes : ListsResolvable w es) {o : IndexedObject} (ho : o ∈ w.objects)
    (hr : Resolvable w (Known es) o) {recursion : UInt32}
    (hrec : w.contents.rank o.offset < linksLeft recursion) (deltas : DeltaChain) :
    (∃ chain, gotPackResolveDeltaChain deltas packidx w.pack o.toObjHdr recursion
        = (chain ++ deltas, .ok ()) ∧ Restores w o chain)
      ∨ ((gotPackResolveDeltaChain deltas packidx w.pack o.toObjHdr recursion).2
        = .error .outOfMap ∧ 2 ^ 30 < es.length) := by
  induction hn : w.contents.rank o.offset using Nat.strong_induction_on
    generalizing o recursion deltas with
  | _ n ih =>
    subst hn
    have hnz : recursion - 1 ≠ 0 := by
      intro hz
      rw [linksLeft_of_eq_zero hz] at hrec
      exact absurd hrec (Nat.not_lt_zero _)
    have hlink := linksLeft_link hnz
    cases hr with
    | plain hp =>
      refine Or.inl ⟨addDelta [] o.toObjHdr 0, ?_, restores_plain ho hp⟩
      rw [gotPackResolveDeltaChain, dif_neg hnz, if_pos hp]
      rfl
    | @offsetDelta _ b n ht hp hb hrb =>
      obtain ⟨b', hb', n', hp', ha⟩ := w.offsetDelta o ho ht
      rw [hp] at hp'
      obtain ⟨hoff, rfl⟩ := Prod.mk.inj (Except.ok.inj hp')
      obtain rfl := WellFormedPack.eq_of_offset hb hb' hoff
      have hlt := ha.rank_lt
      rw [resolve_of_offset_link hnz ht (offsetDeltaBase_eq hb hp ha.pos_lt deltas)]
      rcases ih _ ha.rank_lt hb hrb (show _ < linksLeft (recursion - 1 - 1 - 1) by omega)
        (addDelta deltas o.toObjHdr (o.offset + o.tslen + n)) rfl with ⟨chain, hchain, hrest⟩ | herr
      · refine Or.inl ⟨chain ++ addDelta [] o.toObjHdr (o.offset + o.tslen + n), ?_,
          restores_append (by rw [ht]; decide) ha hrest⟩
        rw [hchain, List.append_assoc]
        rfl
      · exact Or.inr herr
    | @refDelta _ id ht hid hknown =>
      obtain ⟨id', hid', -, ha⟩ := w.refDelta o ho ht
      obtain rfl : id = id' := Except.ok.inj (hid.symm.trans hid')
      rcases gotPackidxGetObjectIdx_spec hl id with ⟨i, e, hi, he, heid⟩ | ⟨-, hno⟩ | ⟨herr, hbig⟩
      · obtain ⟨b, hb, rfl, hrb⟩ := hes e (List.mem_of_getElem? he)
        have ha := ha b hb heid
        have hlt := ha.rank_lt
        rw [resolve_of_ref_link hnz ht (refDeltaBase_eq hb hid hi (hl.offset_at he) deltas)]
        rcases ih _ ha.rank_lt hb hrb (show _ < linksLeft (recursion - 1 - 1 - 1) by omega)
          (addDelta deltas o.toObjHdr (o.offset + o.tslen + SHA1_DIGEST_LENGTH)) rfl
          with ⟨chain, hchain, hrest⟩ | herr
        · refine Or.inl ⟨chain ++ addDelta [] o.toObjHdr (o.offset + o.tslen + SHA1_DIGEST_LENGTH),
            ?_, restores_append (by rw [ht]; decide) ha hrest⟩
          rw [hchain, List.append_assoc]
          rfl
        · exact Or.inr herr
      · obtain ⟨e, he, heid⟩ := hknown
        exact absurd heid (hno e he)
      · refine Or.inr ⟨?_, hbig⟩
        rw [resolve_of_ref_error hnz ht (refDeltaBase_of_error deltas hid herr)]

/-- **What is resolved could be resolved**: the ids its chain needs are in the
index. -/
theorem resolvable_of_resolve {packidx : Packidx} {es : List IdxEntry} (hl : Lists packidx es)
    {o : IndexedObject} (ho : o ∈ w.objects) {recursion : UInt32} {deltas : DeltaChain}
    (h : (gotPackResolveDeltaChain deltas packidx w.pack o.toObjHdr recursion).2 = .ok ()) :
    Resolvable w (Known es) o := by
  induction hn : w.contents.rank o.offset using Nat.strong_induction_on
    generalizing o recursion deltas with
  | _ n ih =>
    subst hn
    have hnz : recursion - 1 ≠ 0 := by
      intro hz
      rw [gotPackResolveDeltaChain, dif_pos hz] at h
      cases h
    rcases (WellFormedPack.firstPass ho).type with hp | ht | ht
    · exact Resolvable.plain hp
    · obtain ⟨id, hid, -, ha⟩ := w.refDelta o ho ht
      rcases gotPackidxGetObjectIdx_spec hl id with ⟨i, e, -, he, heid⟩ | ⟨hnone, -⟩ | ⟨herr, -⟩
      · exact Resolvable.refDelta ht hid ⟨e, List.mem_of_getElem? he, heid⟩
      · -- the id is not found, and the recursion ends
        rw [resolve_of_ref_error hnz ht (refDeltaBase_of_none deltas hid hnone)] at h
        cases h
      · rw [resolve_of_ref_error hnz ht (refDeltaBase_of_error deltas hid herr)] at h
        cases h
    · obtain ⟨b, hb, n, hp, ha⟩ := w.offsetDelta o ho ht
      rw [resolve_of_offset_link hnz ht (offsetDeltaBase_eq hb hp ha.pos_lt deltas)] at h
      exact Resolvable.offsetDelta ht hp hb (ih _ ha.rank_lt hb h rfl)

/-- Every plain type has a label. -/
theorem getObjTypeLabel_of_plain {type : UInt8} (h : isPlainType type) :
    ∃ label, getObjTypeLabel type = .ok label := by
  unfold isPlainType at h
  rcases of_decide_eq_true h with rfl | rfl | rfl | rfl
  · exact ⟨_, rfl⟩
  · exact ⟨_, rfl⟩
  · exact ⟨_, rfl⟩
  · exact ⟨_, rfl⟩

/-- **The id of a delta that can be resolved is found**, unless the index is
too large for its search. -/
theorem resolveDeltifiedObject_of_resolvable {packidx : Packidx} {es : List IdxEntry}
    (hl : Lists packidx es) (hes : ListsResolvable w es) {o : IndexedObject} (ho : o ∈ w.objects)
    (hd : ¬isPlainType o.type) (hr : Resolvable w (Known es) o) :
    resolveDeltifiedObject plat w.pack packidx o.toObjHdr = .ok (w.idOf o)
      ∨ (resolveDeltifiedObject plat w.pack packidx o.toObjHdr = .error .outOfMap
        ∧ 2 ^ 30 < es.length) := by
  have hrank : w.contents.rank o.offset < linksLeft GOT_DELTA_CHAIN_RECURSION_MAX := by
    rw [linksLeft_max]
    have := w.rank_lt o ho
    have := w.length_lt
    omega
  rcases resolve_of_resolvable hl hes ho hr hrank [] with ⟨chain, hchain, hrest⟩ | ⟨herr, hbig⟩
  rotate_left
  · refine Or.inr ⟨?_, hbig⟩
    unfold resolveDeltifiedObject
    rw [show gotPackResolveDeltaChain [] packidx w.pack o.toObjHdr GOT_DELTA_CHAIN_RECURSION_MAX
      = (_, .error .outOfMap) from Prod.ext rfl herr]
  left
  obtain ⟨base, rest, data, iss, rfl, hplain, hkind, hdata, hdeltas, hne, hiss, hf, hc⟩ :=
    hrest.chain
  obtain ⟨label, hlabel⟩ := getObjTypeLabel_of_plain hplain
  obtain ⟨⟨m, hm⟩, hmem, hfile⟩ := dump_of_feasible hdata hdeltas hiss hf (hne hd)
    (plat.scratch o.toObjHdr).1 (plat.scratch o.toObjHdr).2
  have hbuf : dumpDeltaChain plat w.pack o.toObjHdr (base :: rest) = .ok (runAll data iss) := by
    rw [dumpDeltaChain, hm, ok_bind]
    dsimp only
    split
    · exact hfile
    · exact hmem
  unfold resolveDeltifiedObject
  rw [hchain, List.append_nil]
  dsimp only
  rw [hbuf, ok_bind, gotDeltaChainGetBaseType, if_pos hplain, ok_bind, hlabel, ok_bind,
    WellFormedPack.idOf, Contents.objectId, ← hkind, hlabel, hc]
  rfl

/-- A delta that cannot be resolved is not. -/
theorem resolvable_of_resolveDeltifiedObject {packidx : Packidx} {es : List IdxEntry}
    (hl : Lists packidx es) {o : IndexedObject} (ho : o ∈ w.objects) {id : Sha1}
    (h : resolveDeltifiedObject plat w.pack packidx o.toObjHdr = .ok id) :
    Resolvable w (Known es) o := by
  unfold resolveDeltifiedObject at h
  split at h
  · exact nomatch h
  · next deltas hd => exact resolvable_of_resolve hl ho (congrArg Prod.snd hd)

end Got

import Got.Lib.Links
import Got.Pack.Packidx

/-!
# Resolving delta chains

A deltified object is restored from a chain of deltas that ends in a plain
object. Resolving the chain follows the links from each delta to its base,
by three functions that call each other, and collects what it finds. The
links come from a file, so they may run in a circle; a counter which starts
at `GOT_DELTA_CHAIN_RECURSION_MAX` is there to stop that.

The counter is decremented three times for every link: before it is tested,
where it is passed to the function that reads the link, and where it is
passed back. It is tested for equality with zero, and as the limit is not one
more than a multiple of three, it steps over zero. What stops the recursion in the end
is that an unsigned integer wraps around: `linksLeft` is the number of links
that can be followed before that, and for the limit it is beyond any real
chain. The chain that the code does resolve is described without a counter,
by `linkTarget`, the base an object names.
-/

namespace Got

open Links

/-- Upper bound on the length of a delta chain. -/
def GOT_DELTA_CHAIN_RECURSION_MAX : UInt32 := 500

/-- One element of a delta chain. -/
structure Delta where
  offset : ℕ
  tslen : ℕ
  type : UInt8
  size : UInt64
  dataOffset : ℕ
  deriving DecidableEq, Repr

/-- A delta chain: the deltas in the order in which they are applied, after
the base object. -/
abbrev DeltaChain := List Delta

/-- Put an object at the head of the chain. -/
def addDelta (deltas : DeltaChain) (h : ObjHdr) (dataOffset : ℕ) : DeltaChain :=
  { offset := h.offset, tslen := h.tslen, type := h.type, size := h.size, dataOffset } :: deltas

/-! ## Reading a link

What the functions do before they call back: they put the delta at the head
of the chain, and read the header of its base. The chain is an output
parameter, which keeps its value when the function fails. -/

/-- The part of `resolve_offset_delta` before the recursion. -/
def offsetDeltaBase (pack : Pack) (deltas : DeltaChain) (h : ObjHdr) :
    DeltaChain × Except GotErr ObjHdr :=
  match gotPackParseOffsetDelta pack h.offset h.tslen with
  | .error e => (deltas, .error e)
  | .ok (baseOffset, consumed) =>
    let deltaDataOffset := h.offset + h.tslen + consumed
    if pack.filesize ≤ deltaDataOffset then (deltas, .error .packOffset)
    else
      (addDelta deltas h deltaDataOffset,
        -- an offset delta must be in the same pack file
        if pack.filesize ≤ baseOffset then .error .packOffset
        else gotPackParseObjectTypeAndSize pack baseOffset)

/-- The part of `resolve_ref_delta` before the recursion. -/
def refDeltaBase (packidx : Packidx) (pack : Pack) (deltas : DeltaChain) (h : ObjHdr) :
    DeltaChain × Except GotErr ObjHdr :=
  if pack.filesize ≤ h.offset + h.tslen then (deltas, .error .packOffset)
  else
    match pack.idAt (h.offset + h.tslen) with
    | .error e => (deltas, .error e)
    | .ok id =>
      (addDelta deltas h (h.offset + h.tslen + SHA1_DIGEST_LENGTH), do
        -- the delta base must be in the same pack file
        let some idx ← gotPackidxGetObjectIdx packidx id | throw .noObj
        let some baseOffset ← getObjectOffset packidx idx | throw .badPackidx
        if pack.filesize ≤ baseOffset then throw .packOffset
        gotPackParseObjectTypeAndSize pack baseOffset)

/-! ## Following the links -/

/-- **How many links can be followed** before the counter is zero where it is
tested. As the counter is decremented by three for every link, and as three
has an inverse modulo `2 ^ 32`, this is a multiplication. -/
def linksLeft (recursion : UInt32) : ℕ := ((recursion - 1) * 2863311531).toNat

/-- Every link takes one off the number of links that are left. -/
theorem linksLeft_link {recursion : UInt32} (h : recursion - 1 ≠ 0) :
    linksLeft (recursion - 1 - 1 - 1) + 1 = linksLeft recursion := by
  have h' : (recursion - 1).toNat ≠ 0 := fun h0 => h (UInt32.toNat_inj.mp h0)
  revert h'
  simp only [linksLeft, UInt32.toNat_mul, UInt32.toNat_sub, UInt32.reduceToNat]
  have := recursion.toNat_lt
  omega

theorem linksLeft_of_eq_zero {recursion : UInt32} (h : recursion - 1 = 0) :
    linksLeft recursion = 0 := by
  rw [linksLeft, h]
  rfl

mutual

/-- Resolve a delta whose base is at a distance in the same pack file. -/
def resolveOffsetDelta (deltas : DeltaChain) (packidx : Packidx) (pack : Pack) (h : ObjHdr)
    (recursion : UInt32) : DeltaChain × Except GotErr Unit :=
  match offsetDeltaBase pack deltas h with
  | (deltas, .error e) => (deltas, .error e)
  | (deltas, .ok base) => gotPackResolveDeltaChain deltas packidx pack base (recursion - 1)
termination_by 2 * linksLeft (recursion - 1) + 1

/-- Resolve a delta whose base is named by its id. -/
def resolveRefDelta (deltas : DeltaChain) (packidx : Packidx) (pack : Pack) (h : ObjHdr)
    (recursion : UInt32) : DeltaChain × Except GotErr Unit :=
  match refDeltaBase packidx pack deltas h with
  | (deltas, .error e) => (deltas, .error e)
  | (deltas, .ok base) => gotPackResolveDeltaChain deltas packidx pack base (recursion - 1)
termination_by 2 * linksLeft (recursion - 1) + 1

/-- **Resolve a delta chain.** -/
def gotPackResolveDeltaChain (deltas : DeltaChain) (packidx : Packidx) (pack : Pack) (h : ObjHdr)
    (recursion : UInt32) : DeltaChain × Except GotErr Unit :=
  if _h0 : recursion - 1 = 0 then (deltas, .error .recursion)
  else if isPlainType h.type then
    -- recursion ends
    (addDelta deltas h 0, .ok ())
  else if h.type = GOT_OBJ_TYPE_OFFSET_DELTA then
    resolveOffsetDelta deltas packidx pack h (recursion - 1 - 1)
  else if h.type = GOT_OBJ_TYPE_REF_DELTA then
    resolveRefDelta deltas packidx pack h (recursion - 1 - 1)
  else (deltas, .error .objType)
termination_by 2 * linksLeft recursion
decreasing_by
  all_goals
    have := linksLeft_link _h0
    omega

end

/-! ## The chain without the counter -/

/-- The header of the base of a delta, read without a chain to collect. -/
def deltaBase (packidx : Packidx) (pack : Pack) (h : ObjHdr) : Except GotErr ObjHdr :=
  if h.type = GOT_OBJ_TYPE_OFFSET_DELTA then (offsetDeltaBase pack [] h).2
  else if h.type = GOT_OBJ_TYPE_REF_DELTA then (refDeltaBase packidx pack [] h).2
  else .error .objType

/-- **The base an object names**, if it names one that can be read. -/
def linkTarget (packidx : Packidx) (pack : Pack) (h : ObjHdr) : Option ObjHdr :=
  if isPlainType h.type then none else (deltaBase packidx pack h).toOption

/-! ### No link is read with a recursion error -/

theorem pastEnd_ne_recursion (pack : Pack) : pack.pastEnd ≠ .recursion := by
  unfold Pack.pastEnd
  split <;> decide

theorem byteAt_ne_recursion (pack : Pack) (i : ℕ) : pack.byteAt i ≠ .error .recursion := by
  unfold Pack.byteAt
  split
  · exact fun h => nomatch h
  · exact fun h => pastEnd_ne_recursion pack (Except.error.inj h)

theorem tableAt_ne_recursion {α : Type} (table : List α) (i : ℤ) :
    tableAt table i ≠ .error .recursion := by
  unfold tableAt
  split <;> exact fun h => nomatch h

/-- Reading a header never ends in the error for deep chains. -/
theorem parseTypeAndSizeFrom_ne_recursion (pack : Pack) (offset n i : ℕ) (t : UInt8)
    (s : UInt64) : parseTypeAndSizeFrom pack offset n i t s ≠ .error .recursion := by
  induction n generalizing i t s with
  | zero => exact fun h => nomatch h
  | succ n ih =>
    refine bind_ne_error (byteAt_ne_recursion pack _) (fun sizeN => ?_)
    dsimp only
    split
    · exact ih _ _ _
    · exact fun h => nomatch h

/-- Nor does reading a whole header. -/
theorem gotPackParseObjectTypeAndSize_ne_recursion (pack : Pack) (offset : ℕ) :
    gotPackParseObjectTypeAndSize pack offset ≠ .error .recursion := by
  unfold gotPackParseObjectTypeAndSize
  split
  · exact fun h => nomatch h
  · exact parseTypeAndSizeFrom_ne_recursion pack offset _ _ _ _

/-- Nor does reading an offset. -/
theorem parseNegativeOffsetFrom_ne_recursion (pack : Pack) (deltaOffset n i : ℕ) (o : UInt64) :
    parseNegativeOffsetFrom pack deltaOffset n i o ≠ .error .recursion := by
  induction n generalizing i o with
  | zero => exact fun h => nomatch h
  | succ n ih =>
    rw [parseNegativeOffsetFrom]
    split
    · exact fun h => nomatch h
    · refine bind_ne_error (byteAt_ne_recursion pack _) (fun offN => ?_)
      dsimp only
      split
      · exact ih _ _
      · exact fun h => nomatch h

theorem gotPackParseOffsetDelta_ne_recursion (pack : Pack) (offset tslen : ℕ) :
    gotPackParseOffsetDelta pack offset tslen ≠ .error .recursion := by
  refine bind_ne_error (parseNegativeOffsetFrom_ne_recursion pack _ _ _ _) (fun r => ?_)
  dsimp only
  split <;> exact fun h => nomatch h

/-- Nor does the search for an id. -/
theorem searchIds_ne_recursion (packidx : Packidx) (id : Sha1) (fuel : ℕ) (left right : ℤ) :
    searchIds packidx id fuel left right ≠ .error .recursion := by
  induction fuel generalizing left right with
  | zero => exact fun h => by cases h
  | succ fuel ih =>
    rw [searchIds]
    split
    · refine bind_ne_error (tableAt_ne_recursion _ _) (fun oid => ?_)
      split
      · exact fun h => by cases h
      · exact ih _ _
      · exact ih _ _
    · exact fun h => by cases h

/-- Nor does looking up where the ids with a first byte begin. -/
theorem firstIdx_ne_recursion (packidx : Packidx) (id0 : UInt8) :
    firstIdx packidx id0 ≠ .error .recursion := by
  unfold firstIdx
  split
  · exact bind_ne_error (tableAt_ne_recursion _ _) (fun n h => nomatch h)
  · exact fun h => nomatch h

/-- Nor does looking up an id. -/
theorem gotPackidxGetObjectIdx_ne_recursion (packidx : Packidx) (id : Sha1) :
    gotPackidxGetObjectIdx packidx id ≠ .error .recursion := by
  refine bind_ne_error (bind_ne_error (tableAt_ne_recursion _ _) (fun totobj => ?_)) (fun r => ?_)
  · exact bind_ne_error (firstIdx_ne_recursion packidx _)
      (fun left => searchIds_ne_recursion packidx id _ _ _)
  · split <;> exact fun h => nomatch h

/-- Nor does looking up where an object is. -/
theorem getObjectOffset_ne_recursion (packidx : Packidx) (idx : ℤ) :
    getObjectOffset packidx idx ≠ .error .recursion := by
  refine bind_ne_error (tableAt_ne_recursion _ _) (fun offset => ?_)
  unfold offsetOf
  split
  · split
    · exact fun h => nomatch h
    · dsimp only
      split
      · exact fun h => nomatch h
      · exact bind_ne_error (tableAt_ne_recursion _ _) (fun loffset h => nomatch h)
  · exact fun h => nomatch h

/-! ### One link of the recursion -/

/-- Where the base of an offset delta is does not depend on the chain before it. -/
theorem offsetDeltaBase_snd (pack : Pack) (deltas : DeltaChain) (h : ObjHdr) :
    (offsetDeltaBase pack deltas h).2 = (offsetDeltaBase pack [] h).2 := by
  unfold offsetDeltaBase
  split
  · rfl
  · dsimp only
    split <;> rfl

/-- Where the base of a ref delta is does not depend on the chain before it. -/
theorem refDeltaBase_snd (packidx : Packidx) (pack : Pack) (deltas : DeltaChain) (h : ObjHdr) :
    (refDeltaBase packidx pack deltas h).2 = (refDeltaBase packidx pack [] h).2 := by
  unfold refDeltaBase
  split
  · rfl
  · split <;> rfl

/-- A link that is read to its end leaves its delta in the chain. -/
theorem offsetDeltaBase_length {pack : Pack} {deltas : DeltaChain} {h base : ObjHdr}
    (hb : (offsetDeltaBase pack deltas h).2 = .ok base) :
    (offsetDeltaBase pack deltas h).1.length = deltas.length + 1 := by
  revert hb
  unfold offsetDeltaBase
  split
  · exact fun hb => nomatch hb
  · dsimp only
    split
    · exact fun hb => nomatch hb
    · exact fun _ => rfl

/-- A delta that names its base by id makes the chain longer by one. -/
theorem refDeltaBase_length {packidx : Packidx} {pack : Pack} {deltas : DeltaChain}
    {h base : ObjHdr} (hb : (refDeltaBase packidx pack deltas h).2 = .ok base) :
    (refDeltaBase packidx pack deltas h).1.length = deltas.length + 1 := by
  revert hb
  unfold refDeltaBase
  split
  · exact fun hb => nomatch hb
  · split
    · exact fun hb => nomatch hb
    · exact fun _ => rfl

/-- The base at an offset is found or refused, never for the depth of the chain. -/
theorem offsetDeltaBase_ne_recursion (pack : Pack) (deltas : DeltaChain) (h : ObjHdr) :
    (offsetDeltaBase pack deltas h).2 ≠ .error .recursion := by
  unfold offsetDeltaBase
  split
  · next e he =>
    intro h'
    obtain rfl : e = .recursion := Except.error.inj h'
    exact gotPackParseOffsetDelta_ne_recursion pack _ _ he
  · dsimp only
    split
    · exact fun h' => nomatch h'
    · dsimp only
      split
      · exact fun h' => nomatch h'
      · exact gotPackParseObjectTypeAndSize_ne_recursion pack _

/-- The base of an id is found or refused, never for the depth of the chain. -/
theorem refDeltaBase_ne_recursion (packidx : Packidx) (pack : Pack) (deltas : DeltaChain)
    (h : ObjHdr) : (refDeltaBase packidx pack deltas h).2 ≠ .error .recursion := by
  unfold refDeltaBase
  split
  · exact fun h' => nomatch h'
  · split
    · next e he =>
      intro h'
      obtain rfl : e = .recursion := Except.error.inj h'
      unfold Pack.idAt at he
      dsimp only at he
      split at he
      · exact nomatch he
      · exact pastEnd_ne_recursion pack (Except.error.inj he)
    · refine bind_ne_error (gotPackidxGetObjectIdx_ne_recursion packidx _) (fun idx => ?_)
      split
      · refine bind_ne_error (getObjectOffset_ne_recursion packidx _) (fun baseOffset => ?_)
        split
        · split
          · exact fun h' => nomatch h'
          · exact gotPackParseObjectTypeAndSize_ne_recursion pack _
        · exact fun h' => nomatch h'
      · exact fun h' => nomatch h'

/-- One round of the recursion along a link by distance. The counter loses
three. -/
theorem resolve_of_offset_link {packidx : Packidx} {pack : Pack} {h base : ObjHdr}
    {recursion : UInt32} {deltas deltas' : DeltaChain} (hr : recursion - 1 ≠ 0)
    (ho : h.type = GOT_OBJ_TYPE_OFFSET_DELTA)
    (hb : offsetDeltaBase pack deltas h = (deltas', .ok base)) :
    gotPackResolveDeltaChain deltas packidx pack h recursion
      = gotPackResolveDeltaChain deltas' packidx pack base (recursion - 1 - 1 - 1) := by
  rw [gotPackResolveDeltaChain, dif_neg hr, if_neg (by rw [ho]; decide), if_pos ho,
    resolveOffsetDelta]
  split
  · next e he => rw [hb] at he; exact nomatch he
  · next deltas₁ b he =>
    rw [hb] at he
    obtain ⟨rfl, hok⟩ := Prod.mk.inj he
    rw [Except.ok.inj hok]

/-- One round of the recursion along a link by id. -/
theorem resolve_of_ref_link {packidx : Packidx} {pack : Pack} {h base : ObjHdr}
    {recursion : UInt32} {deltas deltas' : DeltaChain} (hr : recursion - 1 ≠ 0)
    (ho : h.type = GOT_OBJ_TYPE_REF_DELTA)
    (hb : refDeltaBase packidx pack deltas h = (deltas', .ok base)) :
    gotPackResolveDeltaChain deltas packidx pack h recursion
      = gotPackResolveDeltaChain deltas' packidx pack base (recursion - 1 - 1 - 1) := by
  rw [gotPackResolveDeltaChain, dif_neg hr, if_neg (by rw [ho]; decide),
    if_neg (by rw [ho]; decide), if_pos ho, resolveRefDelta]
  split
  · next e he => rw [hb] at he; exact nomatch he
  · next deltas₁ b he =>
    rw [hb] at he
    obtain ⟨rfl, hok⟩ := Prod.mk.inj he
    rw [Except.ok.inj hok]

/-- A link by id that cannot be read ends the recursion. -/
theorem resolve_of_ref_error {packidx : Packidx} {pack : Pack} {h : ObjHdr}
    {recursion : UInt32} {deltas deltas' : DeltaChain} {e : GotErr} (hr : recursion - 1 ≠ 0)
    (ho : h.type = GOT_OBJ_TYPE_REF_DELTA)
    (hb : refDeltaBase packidx pack deltas h = (deltas', .error e)) :
    gotPackResolveDeltaChain deltas packidx pack h recursion = (deltas', .error e) := by
  rw [gotPackResolveDeltaChain, dif_neg hr, if_neg (by rw [ho]; decide),
    if_neg (by rw [ho]; decide), if_pos ho, resolveRefDelta]
  split
  · next deltas₁ e' he =>
    rw [hb] at he
    obtain ⟨rfl, heq⟩ := Prod.mk.inj he
    rw [Except.error.inj heq]
  · next b he => rw [hb] at he; exact nomatch he

/-- **One round of the recursion along a link.** -/
theorem resolve_of_link {packidx : Packidx} {pack : Pack} {h base : ObjHdr} {recursion : UInt32}
    (deltas : DeltaChain) (hr : recursion - 1 ≠ 0) (hb : linkTarget packidx pack h = some base) :
    ∃ deltas' : DeltaChain, deltas'.length = deltas.length + 1 ∧
      gotPackResolveDeltaChain deltas packidx pack h recursion
        = gotPackResolveDeltaChain deltas' packidx pack base (recursion - 1 - 1 - 1) := by
  unfold linkTarget at hb
  split at hb
  · exact nomatch hb
  have hok : deltaBase packidx pack h = .ok base := by
    cases hd : deltaBase packidx pack h with
    | error e => rw [hd] at hb; exact nomatch hb
    | ok b => rw [hd] at hb; rw [Option.some.inj hb]
  unfold deltaBase at hok
  split at hok
  · next ho =>
    rw [← offsetDeltaBase_snd pack deltas] at hok
    exact ⟨_, offsetDeltaBase_length hok, resolve_of_offset_link hr ho (Prod.ext rfl hok)⟩
  split at hok
  · next ho =>
    rw [← refDeltaBase_snd packidx pack deltas] at hok
    exact ⟨_, refDeltaBase_length hok, resolve_of_ref_link hr ho (Prod.ext rfl hok)⟩
  · exact nomatch hok

/-- Where there is no link, the recursion ends, and not with a recursion
error. -/
theorem resolve_of_no_link {packidx : Packidx} {pack : Pack} {h : ObjHdr} {recursion : UInt32}
    (deltas : DeltaChain) (hr : recursion - 1 ≠ 0) (hb : linkTarget packidx pack h = none) :
    (gotPackResolveDeltaChain deltas packidx pack h recursion).2 ≠ .error .recursion := by
  rw [gotPackResolveDeltaChain, dif_neg hr]
  unfold linkTarget at hb
  split at hb
  · next hp => rw [if_pos hp]; exact fun h' => nomatch h'
  next hp =>
  rw [if_neg hp]
  obtain ⟨e, he⟩ : ∃ e, deltaBase packidx pack h = .error e := by
    cases hd : deltaBase packidx pack h with
    | error e => exact ⟨e, rfl⟩
    | ok b => rw [hd] at hb; exact nomatch hb
  unfold deltaBase at he
  split at he
  · next ho =>
    rw [if_pos ho, resolveOffsetDelta]
    have hne := offsetDeltaBase_ne_recursion pack deltas h
    rw [← offsetDeltaBase_snd pack deltas] at he
    split
    · next e' he' =>
      rw [he'] at hne
      exact fun h' => hne (congrArg Except.error (Except.error.inj h'))
    · next b he' => rw [he'] at he; exact nomatch he
  next ho =>
  rw [if_neg ho]
  split at he
  · next hr =>
    rw [if_pos hr, resolveRefDelta]
    have hne := refDeltaBase_ne_recursion packidx pack deltas h
    rw [← refDeltaBase_snd packidx pack deltas] at he
    split
    · next e' he' =>
      rw [he'] at hne
      exact fun h' => hne (congrArg Except.error (Except.error.inj h'))
    · next b he' => rw [he'] at he; exact nomatch he
  · next hr => rw [if_neg hr]; exact fun h' => nomatch h'

/-! ### The whole recursion -/

/-- **When the recursion is stopped.** The counter stops it exactly if
`linksLeft` links can be followed, and then after that many. -/
theorem resolve_eq_recursion_iff (packidx : Packidx) (pack : Pack) (h : ObjHdr)
    (deltas : DeltaChain) (recursion : UInt32) :
    (gotPackResolveDeltaChain deltas packidx pack h recursion).2 = .error .recursion
      ↔ HasLinks (linkTarget packidx pack) (linksLeft recursion) h := by
  induction hn : linksLeft recursion generalizing h deltas recursion with
  | zero =>
    have hr : recursion - 1 = 0 := by
      by_contra hr
      have := linksLeft_link hr
      omega
    rw [gotPackResolveDeltaChain, dif_pos hr]
    exact ⟨fun _ => hasLinks_zero h, fun _ => rfl⟩
  | succ n ih =>
    have hr : recursion - 1 ≠ 0 := by
      intro hr
      rw [linksLeft_of_eq_zero hr] at hn
      exact nomatch hn
    cases hb : linkTarget packidx pack h with
    | none =>
      exact ⟨fun h' => absurd h' (resolve_of_no_link deltas hr hb),
        fun h' => absurd h' (not_hasLinks_succ_of_none hb n)⟩
    | some base =>
      obtain ⟨deltas', -, hstep⟩ := resolve_of_link deltas hr hb
      have hn' : linksLeft (recursion - 1 - 1 - 1) = n := by
        have := linksLeft_link hr
        omega
      rw [hstep, ih base deltas' _ hn', hasLinks_succ_of_some hb]

/-- By the time the recursion is stopped, every link that was followed has
left a delta in the chain. -/
theorem length_of_recursion (packidx : Packidx) (pack : Pack) (h : ObjHdr)
    (deltas : DeltaChain) (recursion : UInt32)
    (hr : (gotPackResolveDeltaChain deltas packidx pack h recursion).2 = .error .recursion) :
    (gotPackResolveDeltaChain deltas packidx pack h recursion).1.length
      = deltas.length + linksLeft recursion := by
  induction hn : linksLeft recursion generalizing h deltas recursion with
  | zero =>
    have hz : recursion - 1 = 0 := by
      by_contra hz
      have := linksLeft_link hz
      omega
    rw [gotPackResolveDeltaChain, dif_pos hz]
    rfl
  | succ n ih =>
    have hz : recursion - 1 ≠ 0 := by
      intro hz
      rw [linksLeft_of_eq_zero hz] at hn
      exact nomatch hn
    cases hb : linkTarget packidx pack h with
    | none => exact absurd hr (resolve_of_no_link deltas hz hb)
    | some base =>
      obtain ⟨deltas', hlen, hstep⟩ := resolve_of_link deltas hz hb
      have hn' : linksLeft (recursion - 1 - 1 - 1) = n := by
        have := linksLeft_link hz
        omega
      rw [hstep] at hr ⊢
      rw [ih base deltas' _ hr hn', hlen]
      omega

/-! ## The limit -/

/-- **What the limit is for**: resolving the chain of an object stops with a
recursion error if more than `GOT_DELTA_CHAIN_RECURSION_MAX` links can be
followed, and not before that, and with no more deltas in the chain than the
limit; it does not stop if the chain is shorter than the limit. -/
structure KeepsRecursionLimit (packidx : Packidx) (pack : Pack) (h : ObjHdr) : Prop where
  stops : HasLinks (linkTarget packidx pack) (GOT_DELTA_CHAIN_RECURSION_MAX.toNat + 1) h →
    (gotPackResolveDeltaChain [] packidx pack h GOT_DELTA_CHAIN_RECURSION_MAX).2
      = .error .recursion
  depth : (gotPackResolveDeltaChain [] packidx pack h GOT_DELTA_CHAIN_RECURSION_MAX).2
      = .error .recursion →
    (gotPackResolveDeltaChain [] packidx pack h GOT_DELTA_CHAIN_RECURSION_MAX).1.length
      ≤ GOT_DELTA_CHAIN_RECURSION_MAX.toNat
  resolves : ¬HasLinks (linkTarget packidx pack) GOT_DELTA_CHAIN_RECURSION_MAX.toNat h →
    (gotPackResolveDeltaChain [] packidx pack h GOT_DELTA_CHAIN_RECURSION_MAX).2
      ≠ .error .recursion

theorem linksLeft_max : linksLeft GOT_DELTA_CHAIN_RECURSION_MAX = 2863311697 := by decide

/-- A chain beyond the limit is followed beyond the limit. -/
theorem not_keepsRecursionLimit {packidx : Packidx} {pack : Pack} {h : ObjHdr}
    (hl : HasLinks (linkTarget packidx pack) (GOT_DELTA_CHAIN_RECURSION_MAX.toNat + 1) h) :
    ¬KeepsRecursionLimit packidx pack h := by
  intro hk
  have hdepth := hk.depth (hk.stops hl)
  rw [length_of_recursion _ _ _ _ _ (hk.stops hl), linksLeft_max] at hdepth
  exact absurd hdepth (by decide)

/-- **The limit is kept by the chains that stay within it**, and by no others. Each link takes three
from `recursion`, and the only value that is tested is zero. From 500 on, the counter steps over it,
so that a chain beyond the limit is followed as long as it goes on, until the counter has come
around. -/
theorem keepsRecursionLimit_iff (packidx : Packidx) (pack : Pack) (h : ObjHdr) :
    KeepsRecursionLimit packidx pack h
      ↔ ¬HasLinks (linkTarget packidx pack) (GOT_DELTA_CHAIN_RECURSION_MAX.toNat + 1) h := by
  refine ⟨fun hk hl => not_keepsRecursionLimit hl hk, fun hl => ?_⟩
  have hne : (gotPackResolveDeltaChain [] packidx pack h GOT_DELTA_CHAIN_RECURSION_MAX).2
      ≠ .error .recursion := by
    rw [Ne, resolve_eq_recursion_iff, linksLeft_max]
    exact fun h' => hl (h'.mono (by decide))
  exact ⟨fun h' => absurd h' hl, fun h' => absurd h' hne, fun _ => hne⟩

/-- An offset delta that names itself: after the twelve bytes of the file
header, its distance to its base is zero. -/
def selfDeltaPack : Pack where
  file := [0x50, 0x41, 0x43, 0x4b, 0, 0, 0, 2, 0, 0, 0, 1, 0x64, 0, 0x78, 0x9c, 0, 0]
  mapped := true

/-- The object that names itself is followed beyond the limit. -/
theorem selfDelta_not_keepsRecursionLimit :
    ¬KeepsRecursionLimit ⟨[], [], [], none, 0⟩ selfDeltaPack ⟨12, 1, 6, 4⟩ :=
  not_keepsRecursionLimit (hasLinks_of_self (by decide) _)

end Got

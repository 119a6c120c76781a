import Got.ObjectFile.Text
import Got.Pack.PackidxFile
import Got.Pack.PackidxSearch

/-!
# The ids with a prefix

An id may be given by its first digits. `got_packidx_match_id_str_prefix` scans the ids with
the first byte that the prefix has, from where the fan-out table says that they begin, up to the
first id that is behind the prefix.

For the first byte `00` there is no entry of the fan-out table which says where its ids begin, and
the code reads the word in front of the table. In an index that is mapped into memory this is the
version, which is two, so the scan begins at the third id. The scan compares strings, and the
strings of ids have lower-case letters only, so a prefix with another letter is no prefix of any
(`gotPackidxMatchIdStrPrefix_eq`).
-/

namespace Got

open Numeral SortedTable
open ObjectFile (gotSha1DigestToStr gotParseXdigit gotParseXdigit_digit
  gotParseXdigit_of_digitValue)

/-- `strncmp(3)`, of strings without the zeros at their ends. -/
def strncmp : Bytes → Bytes → ℕ → Ordering
  | _, _, 0 => .eq
  | [], [], _ + 1 => .eq
  | [], _ :: _, _ + 1 => .lt
  | _ :: _, [], _ + 1 => .gt
  | a :: as, b :: bs, n + 1 => if a < b then .lt else if b < a then .gt else strncmp as bs n

/-- The loop over the ids from a position on, `fuel` of which are before the end. -/
def matchIdsFrom (packidx : Packidx) (id0 : UInt8) (idStrPrefix : Bytes) :
    ℕ → ℕ → Except GotErr (List Sha1)
  | 0, _ => .ok []
  | fuel + 1, i => do
    let oid ← tableAt packidx.sortedIds i
    if oid.val.headD 0 = id0 then
      match strncmp (gotSha1DigestToStr oid) idStrPrefix idStrPrefix.length with
      | .lt => matchIdsFrom packidx id0 idStrPrefix fuel (i + 1)
      | .gt => return []
      | .eq => do
        let matchedIds ← matchIdsFrom packidx id0 idStrPrefix fuel (i + 1)
        return oid :: matchedIds
    else return []

/-- The entry of the fan-out table before that of a byte. For the first byte it is the word which is
in front of the table. -/
def fanoutBefore (packidx : Packidx) (wordBefore : UInt32) (id0 : UInt8) : Except GotErr UInt32 :=
  if id0 = 0 then .ok wordBefore else tableAt packidx.fanoutTable (id0.toNat - 1 : ℤ)

/-- **The ids with a prefix.** -/
def gotPackidxMatchIdStrPrefix (packidx : Packidx) (wordBefore : UInt32) (idStrPrefix : Bytes) :
    Except GotErr (List Sha1) := do
  let totobj ← tableAt packidx.fanoutTable 0xff
  if idStrPrefix.length < 2 then throw (.badObjIdStr idStrPrefix)
  match gotParseXdigit (idStrPrefix.take 2) with
  | none => throw (.badObjIdStr idStrPrefix)
  | some id0 => do
    let i ← fanoutBefore packidx wordBefore id0
    matchIdsFrom packidx id0 idStrPrefix (totobj.toNat - i.toNat) i.toNat

/-! ## Prefixes -/

/-- A prefix in hexadecimal digits, of either case. -/
structure HexPrefix (idStrPrefix : Bytes) : Prop where
  two_le : 2 ≤ idStrPrefix.length
  isxdigit : ∀ c ∈ idStrPrefix, (digitValue 16 c).isSome

/-- `tolower(3)` -/
def tolower (c : UInt8) : UInt8 := if 65 ≤ c ∧ c ≤ 90 then c + 32 else c

/-- **The digits of an id begin with those of a prefix**, whatever their case. -/
def StartsWith (idStrPrefix : Bytes) (id : Sha1) : Prop :=
  idStrPrefix.map tolower <+: gotSha1DigestToStr id

instance (idStrPrefix : Bytes) (id : Sha1) : Decidable (StartsWith idStrPrefix id) :=
  inferInstanceAs (Decidable (_ <+: _))

variable {packidx : Packidx} {wordBefore : UInt32} {idStrPrefix : Bytes} {id : Sha1}

/-- Strings are equal up to a length if the first is a prefix. -/
theorem strncmp_eq_iff {s p : Bytes} : strncmp s p p.length = .eq ↔ p <+: s := by
  induction p generalizing s with
  | nil => exact iff_of_true (by cases s <;> rfl) (List.nil_prefix)
  | cons c p ih =>
    cases s with
    | nil => exact iff_of_false (fun h => nomatch h) fun h => nomatch List.prefix_nil.mp h
    | cons a s =>
      rw [List.length_cons, strncmp, List.cons_prefix_cons]
      split
      · next hlt => exact iff_of_false (fun h => nomatch h) fun h => UInt8.lt_irrefl a (h.1 ▸ hlt)
      · next hge =>
        split
        · next hgt => exact iff_of_false (fun h => nomatch h) fun h => UInt8.lt_irrefl a (h.1 ▸ hgt)
        · next hle =>
          have heq : c = a := UInt8.le_antisymm (UInt8.not_lt.mp hge) (UInt8.not_lt.mp hle)
          rw [ih, and_iff_right heq]

/-- **A string behind one that is behind the prefix** does not have the prefix. -/
theorem strncmp_ne_eq_of_gt {s t p : Bytes} {n : ℕ} (hlen : s.length = t.length)
    (hst : memcmp s t ≠ .gt) (hs : strncmp s p n = .gt) : strncmp t p n ≠ .eq := by
  induction n generalizing s t p with
  | zero => cases s <;> cases p <;> cases hs
  | succ n ih =>
    match s, t, p, hlen with
    | [], [], [], _ => cases hs
    | [], [], _ :: _, _ => cases hs
    | a :: s, b :: t, [], _ => exact fun h => by cases h
    | a :: s, b :: t, c :: p, hlen =>
      rw [memcmp] at hst
      rw [strncmp] at hs ⊢
      have hab : a ≤ b := by
        refine UInt8.not_lt.mp fun hlt => hst ?_
        rw [if_neg (UInt8.not_lt.mpr (UInt8.le_of_lt hlt)), if_pos hlt]
      by_cases hca : c < a
      · have hcb : c < b := UInt8.lt_of_lt_of_le hca hab
        rw [if_neg (UInt8.not_lt.mpr (UInt8.le_of_lt hcb)), if_pos hcb]
        exact fun h => by cases h
      · by_cases hac : a < c
        · rw [if_pos hac] at hs
          cases hs
        · obtain rfl : a = c := UInt8.le_antisymm (UInt8.not_lt.mp hca) (UInt8.not_lt.mp hac)
          rw [if_neg hac, if_neg hac] at hs
          by_cases hlt : a < b
          · rw [if_neg (UInt8.not_lt.mpr (UInt8.le_of_lt hlt)), if_pos hlt]
            exact fun h => by cases h
          · obtain rfl : a = b := UInt8.le_antisymm hab (UInt8.not_lt.mp hlt)
            rw [if_neg hlt, if_neg hlt] at hst
            rw [if_neg hac, if_neg hac]
            exact ih (Nat.succ.inj hlen) hst hs

/-! ## The digits of an id -/

/-- The digits of bytes. -/
def hexDigits (bs : Bytes) : Bytes :=
  bs.flatMap fun b => [digit (b.toNat / 16), digit (b.toNat % 16)]

theorem hexDigits_cons (b : UInt8) (bs : Bytes) :
    hexDigits (b :: bs) = digit (b.toNat / 16) :: digit (b.toNat % 16) :: hexDigits bs := rfl

/-- Each byte has two digits. -/
theorem length_hexDigits (bs : Bytes) : (hexDigits bs).length = 2 * bs.length := by
  induction bs with
  | nil => rfl
  | cons b bs ih =>
    rw [hexDigits_cons, List.length_cons, List.length_cons, ih, List.length_cons]
    omega

theorem digit_lt : ∀ n < 16, ∀ m < n, digit m < digit n := by decide

/-- Digits are ordered as what they stand for. -/
theorem memcmp_hexDigits {a b : Bytes} (h : memcmp a b = .lt) :
    memcmp (hexDigits a) (hexDigits b) = .lt := by
  induction a generalizing b with
  | nil => cases b <;> cases h
  | cons x a ih =>
    match b, h with
    | y :: b, h =>
      have hx := x.toNat_lt
      have hy := y.toNat_lt
      have hdigit : ∀ {m n : ℕ}, n < 16 → m < n
        → ∀ as bs, memcmp (digit m :: as) (digit n :: bs) = .lt :=
        fun hn hmn as bs => by rw [memcmp, if_pos (digit_lt _ hn _ hmn)]
      have hsame : ∀ (d : UInt8) (as bs : Bytes), memcmp (d :: as) (d :: bs) = memcmp as bs :=
        fun d as bs => by rw [memcmp, if_neg (UInt8.lt_irrefl d), if_neg (UInt8.lt_irrefl d)]
      rw [hexDigits_cons, hexDigits_cons]
      rw [memcmp] at h
      split at h
      · next hlt =>
        have hlt := UInt8.lt_iff_toNat_lt.mp hlt
        by_cases hhi : x.toNat / 16 < y.toNat / 16
        · exact hdigit (by omega) hhi _ _
        · rw [show x.toNat / 16 = y.toNat / 16 by omega, hsame]
          exact hdigit (by omega) (by omega) _ _
      · next hge =>
        split at h
        · cases h
        · next hle =>
          obtain rfl : x = y := UInt8.le_antisymm (UInt8.not_lt.mp hle) (UInt8.not_lt.mp hge)
          rw [hsame, hsame]
          exact ih h

/-- The first two digits are those of the first byte. -/
theorem gotParseXdigit_of_begins (hlen : 2 ≤ idStrPrefix.length)
    (h : idStrPrefix <+: gotSha1DigestToStr id) :
    gotParseXdigit (idStrPrefix.take 2) = some (id.val.headD 0) := by
  obtain ⟨bs, hbs⟩ := id
  match bs, hbs with
  | b :: bs, _ =>
    have htake : idStrPrefix.take 2 = (hexDigits (b :: bs)).take 2 := by
      rw [List.prefix_iff_eq_take.mp h, List.take_take, Nat.min_eq_left hlen]
      rfl
    rw [htake, hexDigits_cons]
    exact gotParseXdigit_digit b

/-- Valid digits have a value. -/
theorem HexPrefix.gotParseXdigit (h : HexPrefix idStrPrefix) :
    ∃ id0, ObjectFile.gotParseXdigit (idStrPrefix.take 2) = some id0 := by
  match idStrPrefix, h with
  | a :: b :: _, h =>
    obtain ⟨m, hm⟩ := Option.isSome_iff_exists.mp (h.isxdigit a List.mem_cons_self)
    obtain ⟨n, hn⟩ := Option.isSome_iff_exists.mp
      (h.isxdigit b (List.mem_cons_of_mem _ List.mem_cons_self))
    exact ⟨_, gotParseXdigit_of_digitValue hm hn⟩
  | [], h => exact absurd h.two_le (by decide)
  | [_], h => exact absurd h.two_le (Nat.not_le.mpr Nat.one_lt_two)

theorem tolower_digit : ∀ n < 16, tolower (digit n) = digit n := by decide

/-- The digits of an id are in lower case, and so are those of a prefix of it. -/
theorem map_tolower_of_begins (h : idStrPrefix <+: gotSha1DigestToStr id) :
    idStrPrefix.map tolower = idStrPrefix := by
  refine (List.map_congr_left fun c hc => ?_).trans (List.map_id _)
  obtain ⟨b, -, hb⟩ := List.mem_flatMap.mp (h.subset hc)
  have hlt := b.toNat_lt
  rcases List.mem_cons.mp hb with rfl | hb
  · exact tolower_digit _ (by omega)
  · obtain rfl := List.mem_singleton.mp hb
    exact tolower_digit _ (by omega)

/-! ## The scan -/

/-- An id that is less has no greater first byte. -/
theorem headD_le_of_memcmp {a b : Sha1} (h : memcmp a.val b.val = .lt) :
    a.val.headD 0 ≤ b.val.headD 0 := by
  rcases memcmp_spec (a.2.trans b.2.symm) with ⟨-, hk⟩ | ⟨heq, -⟩ | ⟨hgt, -⟩
  · exact headD_le_of_idKey_le (Nat.le_of_lt hk)
  · exact nomatch h.symm.trans heq
  · exact nomatch h.symm.trans hgt

/-- **The scan finds the ids with the prefix**, if it does not begin before the ids with the first
byte. It may stop where it does: the first bytes of the ids behind are larger, or the digits of
those ids are behind the prefix. -/
theorem matchIdsFrom_eq {id0 : UInt8} {l : List Sha1} {i : ℕ} (hl : packidx.sortedIds.drop i = l)
    (hlen : 2 ≤ idStrPrefix.length) (hid0 : gotParseXdigit (idStrPrefix.take 2) = some id0)
    (hsorted : l.Pairwise fun a b => memcmp a.val b.val = .lt)
    (hfirst : ∀ oid ∈ l, id0 ≤ oid.val.headD 0) :
    matchIdsFrom packidx id0 idStrPrefix l.length i
      = .ok (l.filter (idStrPrefix <+: gotSha1DigestToStr ·)) := by
  induction l generalizing i with
  | nil => rfl
  | cons oid l ih =>
    have hlt : i < packidx.sortedIds.length := by
      by_contra hge
      rw [List.drop_eq_nil_of_le (Nat.not_lt.mp hge)] at hl
      exact nomatch hl
    rw [List.drop_eq_getElem_cons hlt] at hl
    obtain ⟨hoid, hl⟩ := List.cons.inj hl
    obtain ⟨hbehind, hsorted⟩ := List.pairwise_cons.mp hsorted
    have hrest := ih hl hsorted fun o ho => hfirst o (List.mem_cons_of_mem _ ho)
    have hnone (h : ∀ o ∈ oid :: l, ¬idStrPrefix <+: gotSha1DigestToStr o) :
        (oid :: l).filter (idStrPrefix <+: gotSha1DigestToStr ·) = [] :=
      List.filter_eq_nil_iff.mpr fun o ho => by
        rw [decide_eq_true_eq]
        exact h o ho
    rw [List.length_cons, matchIdsFrom, tableAt_of_lt hlt, ok_bind, hoid]
    split
    · next heq =>
      split
      · next hcmp =>
        have hno : ¬idStrPrefix <+: gotSha1DigestToStr oid := fun h => by
          rw [strncmp_eq_iff.mpr h] at hcmp
          exact nomatch hcmp
        rw [hrest, List.filter_cons_of_neg (by simpa using hno)]
      · next hcmp =>
        rw [hnone fun o ho h => ?_]
        · rfl
        · have hsame := strncmp_eq_iff.mpr h
          rcases List.mem_cons.mp ho with rfl | ho
          · exact nomatch hcmp.symm.trans hsame
          · have hlo : memcmp (hexDigits oid.val) (hexDigits o.val) ≠ .gt := by
              rw [memcmp_hexDigits (hbehind o ho)]
              exact fun h => nomatch h
            have hlens : (hexDigits oid.val).length = (hexDigits o.val).length := by
              rw [length_hexDigits, length_hexDigits, oid.2, o.2]
            exact strncmp_ne_eq_of_gt hlens hlo hcmp hsame
      · next hcmp =>
        rw [hrest, List.filter_cons_of_pos (by simpa using strncmp_eq_iff.mp hcmp)]
        rfl
    · next hne =>
      rw [hnone fun o ho h => ?_]
      · rfl
      · have hhead : o.val.headD 0 = id0 :=
          Option.some.inj ((gotParseXdigit_of_begins hlen h).symm.trans hid0)
        rcases List.mem_cons.mp ho with rfl | ho
        · exact hne hhead
        · have hle := headD_le_of_memcmp (hbehind o ho)
          rw [hhead] at hle
          exact hne (UInt8.le_antisymm hle (hfirst oid List.mem_cons_self))

/-- **Where the ids with a first byte begin**, but for the first of all bytes. -/
theorem ConsistentIdx.fanoutBefore_spec (h : ConsistentIdx packidx) {id0 : UInt8} (h0 : id0 ≠ 0)
    (wordBefore : UInt32) : ∃ i, fanoutBefore packidx wordBefore id0 = .ok i
      ∧ ∀ (j : ℕ) (oid : Sha1), packidx.sortedIds[j]? = some oid →
        (j < i.toNat ↔ oid.val.headD 0 < id0) := by
  have hpos : 0 < id0.toNat := Nat.pos_of_ne_zero fun hz => h0 (UInt8.toNat_inj.mp hz)
  have hlt : id0.toNat - 1 < packidx.fanoutTable.length := by
    have hid0 := id0.toNat_lt
    rw [h.fanout_length]
    omega
  refine ⟨packidx.fanoutTable[id0.toNat - 1], ?_, fun j oid hj => ?_⟩
  · have hidx : (id0.toNat - 1 : ℤ) = ((id0.toNat - 1 : ℕ) : ℤ) := by omega
    rw [fanoutBefore, if_neg h0, hidx, tableAt_of_lt hlt]
  · obtain ⟨hjlt, rfl⟩ := List.getElem?_eq_some_iff.mp hj
    have hsorted : SortedBy (fun id : Sha1 => idKey id.val) packidx.sortedIds := by
      refine h.sorted.imp fun {a b} hlt => ?_
      rcases memcmp_spec (a.2.trans b.2.symm) with ⟨-, hk⟩ | ⟨heq, -⟩ | ⟨hgt, -⟩
      · exact Nat.le_of_lt hk
      · exact nomatch hlt.symm.trans heq
      · exact nomatch hlt.symm.trans hgt
    rw [h.fanout _ hlt, hsorted.lt_countP_iff (fun a b hab hb => ?_) hjlt, decide_eq_true_eq,
      UInt8.lt_iff_toNat_lt]
    · omega
    · have hle := UInt8.le_iff_toNat_le.mp (headD_le_of_idKey_le hab)
      rw [decide_eq_true_eq] at hb ⊢
      omega

/-- How many ids the scan passes over that have the first byte: as many as the word in front of the
table says, if it is the first of all bytes. -/
def skipped (wordBefore : UInt32) (idStrPrefix : Bytes) : ℕ :=
  if gotParseXdigit (idStrPrefix.take 2) = some 0 then wordBefore.toNat else 0

/-- **What the code finds**: the ids whose digits, in lower case, have the prefix as it is given,
but for those that are passed over. -/
theorem gotPackidxMatchIdStrPrefix_eq (h : ConsistentIdx packidx) (hhex : HexPrefix idStrPrefix)
    (wordBefore : UInt32) : gotPackidxMatchIdStrPrefix packidx wordBefore idStrPrefix
      = .ok ((packidx.sortedIds.drop (skipped wordBefore idStrPrefix)).filter
          (idStrPrefix <+: gotSha1DigestToStr ·)) := by
  obtain ⟨totobj, htot, hlen⟩ := h.totobj
  obtain ⟨id0, hid0⟩ := hhex.gotParseXdigit
  have hscan (i : UInt32) (hfirst : ∀ oid ∈ packidx.sortedIds.drop i.toNat, id0 ≤ oid.val.headD 0) :
      matchIdsFrom packidx id0 idStrPrefix (totobj.toNat - i.toNat) i.toNat
        = .ok ((packidx.sortedIds.drop i.toNat).filter (idStrPrefix <+: gotSha1DigestToStr ·)) := by
    rw [hlen, ← List.length_drop]
    exact matchIdsFrom_eq rfl hhex.two_le hid0 (h.sorted.sublist (List.drop_sublist _ _)) hfirst
  unfold gotPackidxMatchIdStrPrefix
  rw [htot, ok_bind, if_neg (Nat.not_lt.mpr hhex.two_le), hid0, skipped, hid0]
  dsimp only
  by_cases h0 : id0 = 0
  · rw [if_pos (congrArg some h0), fanoutBefore, if_pos h0]
    refine hscan wordBefore fun oid _ => ?_
    rw [h0]
    exact UInt8.zero_le
  · obtain ⟨i, hi, hspec⟩ := h.fanoutBefore_spec h0 wordBefore
    rw [if_neg (fun heq => h0 (Option.some.inj heq)), hi, List.drop_zero]
    have hbehind : ∀ oid ∈ packidx.sortedIds.drop i.toNat, id0 ≤ oid.val.headD 0 := by
      intro oid hoid
      obtain ⟨j, hj⟩ := List.mem_iff_getElem?.mp hoid
      rw [List.getElem?_drop] at hj
      exact UInt8.not_lt.mp fun hlt => absurd ((hspec _ oid hj).mpr hlt) (by omega)
    have hbefore : (packidx.sortedIds.take i.toNat).filter (idStrPrefix <+: gotSha1DigestToStr ·)
      = [] := by
      refine List.filter_eq_nil_iff.mpr fun oid hoid hmatch => ?_
      obtain ⟨j, hj⟩ := List.mem_iff_getElem?.mp hoid
      have hji : j < i.toNat := by
        have hlt := (List.getElem?_eq_some_iff.mp hj).1
        rw [List.length_take] at hlt
        omega
      rw [List.getElem?_take_of_lt hji] at hj
      have hlt := (hspec j oid hj).mp hji
      have hhead := gotParseXdigit_of_begins hhex.two_le (of_decide_eq_true hmatch)
      rw [hid0] at hhead
      rw [← Option.some.inj hhead] at hlt
      exact UInt8.lt_irrefl _ hlt
    refine (hscan i hbehind).trans (congrArg Except.ok ?_)
    conv_rhs => rw [← List.take_append_drop i.toNat packidx.sortedIds]
    rw [List.filter_append, hbefore, List.nil_append]

/-! ## What should be found -/

/-- **Exactly the ids with the prefix are returned.** -/
def FindsPrefix (packidx : Packidx) (wordBefore : UInt32) (idStrPrefix : Bytes) : Prop :=
  gotPackidxMatchIdStrPrefix packidx wordBefore idStrPrefix
    = .ok (packidx.sortedIds.filter (StartsWith idStrPrefix ·))

/-- Nothing is lost in front of a position if nothing that counts is there. -/
theorem filter_drop_eq_iff {α : Type} {p : α → Bool} {l : List α} {k : ℕ} :
    (l.drop k).filter p = l.filter p ↔ ∀ (i : ℕ) (a : α), l[i]? = some a → p a → k ≤ i := by
  have hsplit : l.filter p = (l.take k).filter p ++ (l.drop k).filter p := by
    rw [← List.filter_append, List.take_append_drop]
  rw [hsplit, List.self_eq_append_left, List.filter_eq_nil_iff]
  constructor
  · intro h i a hi ha
    by_contra hlt
    have hmem : (l.take k)[i]? = some a := by
      rw [List.getElem?_take_of_lt (Nat.not_le.mp hlt), hi]
    exact h a (List.mem_of_getElem? hmem) ha
  · intro h a hmem ha
    obtain ⟨i, hi⟩ := List.mem_iff_getElem?.mp hmem
    have hlt := (List.getElem?_eq_some_iff.mp hi).1
    rw [List.length_take] at hlt
    rw [List.getElem?_take_of_lt (by omega)] at hi
    have hle := h i a hi ha
    omega

/-- **When exactly the ids with the prefix are returned**: if every id with the prefix – there may
be none – is where the scan goes, and the prefix has no letter in upper case. -/
theorem findsPrefix_iff (h : ConsistentIdx packidx) (hhex : HexPrefix idStrPrefix)
    (wordBefore : UInt32) : FindsPrefix packidx wordBefore idStrPrefix
      ↔ ∀ (i : ℕ) (id : Sha1), packidx.sortedIds[i]? = some id → StartsWith idStrPrefix id →
        idStrPrefix.map tolower = idStrPrefix
          ∧ (gotParseXdigit (idStrPrefix.take 2) = some 0 → wordBefore.toNat ≤ i) := by
  rw [FindsPrefix, gotPackidxMatchIdStrPrefix_eq h hhex]
  have hskipped (i : ℕ) : skipped wordBefore idStrPrefix ≤ i
      ↔ (gotParseXdigit (idStrPrefix.take 2) = some 0 → wordBefore.toNat ≤ i) := by
    unfold skipped
    split
    · next h0 => exact ⟨fun h _ => h, fun h => h h0⟩
    · next h0 => exact iff_of_true (Nat.zero_le i) fun h => absurd h h0
  simp only [← hskipped]
  constructor
  · intro heq i id hi hid
    have hfound : (packidx.sortedIds.filter (StartsWith idStrPrefix ·)) = _ :=
      (Except.ok.inj heq).symm
    have hlow : idStrPrefix.map tolower = idStrPrefix := by
      have hmem : id ∈ packidx.sortedIds.filter (StartsWith idStrPrefix ·) :=
        List.mem_filter.mpr ⟨List.mem_of_getElem? hi, decide_eq_true hid⟩
      rw [hfound] at hmem
      exact map_tolower_of_begins (of_decide_eq_true (List.mem_filter.mp hmem).2)
    refine ⟨hlow, ?_⟩
    simp only [StartsWith, hlow] at heq hid
    exact filter_drop_eq_iff.mp (Except.ok.inj heq) i id hi (decide_eq_true hid)
  · intro hall
    refine congrArg Except.ok ?_
    by_cases hlow : idStrPrefix.map tolower = idStrPrefix
    · simp only [StartsWith, hlow] at hall ⊢
      exact filter_drop_eq_iff.mpr fun i id hi hid => (hall i id hi (of_decide_eq_true hid)).2
    · -- no id has such a prefix, and none is found
      have hnone : ∀ id ∈ packidx.sortedIds, ¬StartsWith idStrPrefix id := by
        intro id hid hstarts
        obtain ⟨i, hi⟩ := List.mem_iff_getElem?.mp hid
        exact hlow (hall i id hi hstarts).1
      have hright : packidx.sortedIds.filter (StartsWith idStrPrefix ·) = [] :=
        List.filter_eq_nil_iff.mpr fun id hid => by simpa using hnone id hid
      rw [hright]
      exact List.filter_eq_nil_iff.mpr fun id _ hmatch =>
        hlow (map_tolower_of_begins (of_decide_eq_true hmatch))

theorem findsPrefix_firstIds : FindsPrefix (firstIdsIdx 2) 2 [0x30, 0x30]
    ↔ ∀ (i : ℕ) (id : Sha1), (firstIdsIdx 2).sortedIds[i]? = some id → StartsWith [0x30, 0x30] id →
      [0x30, 0x30].map tolower = [0x30, 0x30]
        ∧ (gotParseXdigit ([0x30, 0x30].take 2) = some 0 → (2 : UInt32).toNat ≤ i) :=
  findsPrefix_iff (consistentIdx_firstIdsIdx (by decide)) ⟨by decide, by decide +kernel⟩ 2

/-- An index of one id. -/
def oneIdIdx (id : Sha1) : Packidx where
  fanoutTable := (List.range 256).map fun b => if (id.val.headD 0).toNat ≤ b then 1 else 0
  sortedIds := [id]
  offsets := [12]
  largeOffsets := none
  nlargeobj := 0

/-- An index of one id is consistent. -/
theorem consistentIdx_oneIdIdx (id : Sha1) : ConsistentIdx (oneIdIdx id) where
  sorted := List.pairwise_singleton _ _
  fanout_length := by
    show ((List.range 256).map _).length = 256
    rw [List.length_map, List.length_range]
  fanout := by
    intro b hb
    simp only [oneIdIdx, List.getElem_map, List.getElem_range, List.countP_singleton,
      decide_eq_true_eq]
    split <;> rfl

/-- The id of which all bytes are zero. -/
def zeroId : Sha1 := ⟨List.replicate SHA1_DIGEST_LENGTH 0, length_zeros⟩

/-- An id that begins with two zeros is passed over in a mapped index, and one that begins with `ab`
is not found by `AB`. -/
theorem not_findsPrefix_oneIdIdx :
    (ConsistentIdx (oneIdIdx zeroId) ∧ ConsistentIdx (oneIdIdx ObjectFile.someId))
      ∧ ¬FindsPrefix (oneIdIdx zeroId) GOT_PACKIDX_VERSION [0x30, 0x30]
      ∧ ¬FindsPrefix (oneIdIdx ObjectFile.someId) GOT_PACKIDX_VERSION [0x41, 0x42] := by
  refine ⟨⟨consistentIdx_oneIdIdx _, consistentIdx_oneIdIdx _⟩, fun h => ?_, fun h => ?_⟩
  · have hcode : gotPackidxMatchIdStrPrefix (oneIdIdx zeroId) GOT_PACKIDX_VERSION [0x30, 0x30]
        = .ok [] := rfl
    have hlist := Except.ok.inj (hcode.symm.trans h)
    exact absurd hlist (by decide)
  · have hcode : gotPackidxMatchIdStrPrefix (oneIdIdx ObjectFile.someId) GOT_PACKIDX_VERSION
        [0x41, 0x42] = .ok [] := rfl
    have hlist := Except.ok.inj (hcode.symm.trans h)
    exact absurd hlist (by decide)

end Got

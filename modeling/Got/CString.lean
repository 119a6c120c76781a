import Mathlib.Data.List.TakeWhile
import Got.Error
import Got.Lib.Numeral
import Got.Memory
import Got.Path

/-!
# Strings of C

What the C library does with strings, where a string is the bytes before the zero
that ends it. The text of a path is a list of characters everywhere else, each of
which is a byte here.

Reading behind the end of a string is an error, unless it is the zero that is read.
-/

namespace Got

open Numeral

/-- The bytes of a path. -/
def pathBytes (path : Str) : Bytes := path.map (fun c => c.toNat.toUInt8)

/-- The string that begins at some bytes. -/
def cString (bytes : Bytes) : Str := (bytes.takeWhile (· ≠ 0)).map (fun c => Char.ofNat c.toNat)

/-- The bytes of a text of the source. -/
def text (s : String) : Bytes := pathBytes s.toList

/-- **A string in memory**, which ends where there is a zero. -/
abbrev CStr := {s : Bytes // 0 ∉ s}

theorem zero_not_mem_takeWhile (p : Bytes) : 0 ∉ p.takeWhile (· ≠ 0) := by
  intro h
  have := List.mem_takeWhile_imp h
  simp at this

/-- `strdup` copies up to the first NUL, so that what it answers is a C string by construction. -/
def strdup (p : Bytes) : CStr := ⟨p.takeWhile (· ≠ 0), zero_not_mem_takeWhile p⟩

/-- `isspace(3)`, in the C locale. -/
def isspace (c : UInt8) : Bool := c = 0x20 ∨ 0x09 ≤ c ∧ c ≤ 0x0d

/-- `isdigit(3)` -/
def isdigit (c : UInt8) : Bool := 0x30 ≤ c ∧ c ≤ 0x39

/-- `*p` for a `char *p` into a string. -/
def charAt (s : Bytes) (i : ℕ) : Except GotErr UInt8 :=
  if i < s.length then .ok (s.getD i 0) else if i = s.length then .ok 0 else .error .outOfMap

/-- A `char` as an `int`. -/
def charInt (c : UInt8) : ℤ := if c < 0x80 then c.toNat else c.toNat - 0x100

/-- `strrchr(3)`: what is before the last occurrence of a character, and behind it. -/
def strrchr (s : Bytes) (c : UInt8) : Option (Bytes × Bytes) :=
  match s.reverse.dropWhile (· ≠ c) with
  | [] => none
  | _ :: before => some (before.reverse, (s.reverse.takeWhile (· ≠ c)).reverse)

/-- `strtol(3)`: the number, and what follows it. There is no number if nothing was
read. A base of 16 may have a prefix, which is not modelled. -/
def strtol (base : ℕ) (s : Bytes) : Option (ℤ × Bytes) :=
  let number (sign : ℤ) (s : Bytes) :=
    match s.head?.bind (digitValue base) with
    | some _ =>
      let (n, rest) := readNumber base s 0
      some (sign * n, rest)
    | none => none
  match s.dropWhile isspace with
  | [] => none
  | c :: s => if c = 0x2d then number (-1) s else if c = 0x2b then number 1 s else number 1 (c :: s)

/-- **`strtonum(3)`** -/
def strtonum (s : Bytes) (minval maxval : ℤ) : Option ℤ :=
  match strtol 10 s with
  | some (n, []) => if n < minval ∨ n > maxval then none else some n
  | _ => none

/-- `%lld` -/
def showInt (n : ℤ) : Bytes := if n < 0 then 0x2d :: decimal n.natAbs else decimal n.toNat

/-! ## Paths -/

/-- The string that begins at the bytes of a path and a zero. -/
theorem cString_append {path : Str} (h : ∀ c ∈ path, 0 < c.toNat ∧ c.toNat < 256) (rest : Bytes) :
    cString (pathBytes path ++ 0 :: rest) = path := by
  induction path with
  | nil => rfl
  | cons c path ih =>
    obtain ⟨⟨hpos, hlt⟩, hrest⟩ := List.forall_mem_cons.mp h
    have hc : c.toNat.toUInt8.toNat = c.toNat := Nat.mod_eq_of_lt hlt
    have hne : c.toNat.toUInt8 ≠ 0 := fun h0 => by
      rw [h0] at hc
      exact absurd hc.symm (Nat.ne_of_gt hpos)
    have htail := ih hrest
    unfold cString at htail ⊢
    rw [pathBytes, List.map_cons, List.cons_append,
      List.takeWhile_cons_of_pos (by simpa using hne), List.map_cons, hc, Char.ofNat_toNat]
    exact congrArg _ htail

theorem cString_pathBytes {path : Str} (h : ∀ c ∈ path, 0 < c.toNat ∧ c.toNat < 256) (n : ℕ)
    (hn : 0 < n) : cString (pathBytes path ++ List.replicate n 0) = path := by
  obtain ⟨n, rfl⟩ := Nat.exists_eq_succ_of_ne_zero hn.ne'
  exact cString_append h (List.replicate n 0)

/-- A path without a NUL has no zero among its bytes. -/
theorem zero_not_mem_pathBytes {path : Str} (h : ∀ c ∈ path, 0 < c.toNat ∧ c.toNat < 256) :
    0 ∉ pathBytes path := by
  intro h0
  obtain ⟨c, hc, heq⟩ := List.mem_map.mp h0
  obtain ⟨hpos, hlt⟩ := h c hc
  have hc : c.toNat.toUInt8.toNat = c.toNat := Nat.mod_eq_of_lt hlt
  rw [heq] at hc
  exact absurd hc.symm (Nat.ne_of_gt hpos)

/-! ## Searching -/

/-- The first place where something is found. -/
theorem findIdx?_append_cons {p : UInt8 → Bool} {before : Bytes} {c : UInt8}
    (hbefore : ∀ a ∈ before, p a = false) (hc : p c = true) (after : Bytes) :
    (before ++ c :: after).findIdx? p = some before.length := by
  induction before with
  | nil => rw [List.nil_append, List.findIdx?_cons, if_pos hc]; rfl
  | cons a before ih =>
    obtain ⟨ha, hbefore⟩ := List.forall_mem_cons.mp hbefore
    rw [List.cons_append, List.findIdx?_cons, if_neg (by rw [ha]; exact Bool.false_ne_true),
      ih hbefore]
    rfl

/-- What is before the first zero. -/
theorem takeWhile_append_zero {before : Bytes} (h : 0 ∉ before) (after : Bytes) :
    (before ++ 0 :: after).takeWhile (· ≠ 0) = before := by
  have hne : ∀ a ∈ before, decide (a ≠ 0) = true := fun a ha =>
    decide_eq_true fun heq => h (heq ▸ ha)
  rw [List.takeWhile_append_of_pos hne, List.takeWhile_cons_of_neg (by simp), List.append_nil]

/-- A text without a zero is a string. -/
theorem takeWhile_of_not_mem {s : Bytes} (h : 0 ∉ s) : s.takeWhile (· ≠ 0) = s :=
  List.takeWhile_eq_self_iff.mpr fun a ha => decide_eq_true fun heq : a = 0 => h (heq ▸ ha)

/-- What is before the first of a byte, and behind it. -/
theorem append_cons_inj {c : UInt8} {xs xs' ys ys' : Bytes} (hxs : c ∉ xs) (hxs' : c ∉ xs')
    (h : xs ++ c :: ys = xs' ++ c :: ys') : xs = xs' ∧ ys = ys' := by
  induction xs generalizing xs' with
  | nil =>
    cases xs' with
    | nil => exact ⟨rfl, (List.cons.inj h).2⟩
    | cons x' xs' => exact absurd ((List.cons.inj h).1 ▸ List.mem_cons_self) hxs'
  | cons x xs ih =>
    cases xs' with
    | nil => exact absurd ((List.cons.inj h).1 ▸ List.mem_cons_self) hxs
    | cons x' xs' =>
      obtain ⟨rfl, htail⟩ := List.cons.inj h
      obtain ⟨rfl, rfl⟩ := ih (fun hmem => hxs (List.mem_cons_of_mem _ hmem))
        (fun hmem => hxs' (List.mem_cons_of_mem _ hmem)) htail
      exact ⟨rfl, rfl⟩

/-! ## Numbers -/

/-- `strrchr` splits at the last occurrence: the character is not in what follows. -/
theorem strrchr_append {c : UInt8} {after : Bytes} (h : c ∉ after) (before : Bytes) :
    strrchr (before ++ c :: after) c = some (before, after) := by
  have hall : ∀ a ∈ after.reverse, decide (a ≠ c) = true := fun a ha =>
    decide_eq_true fun heq => h (heq ▸ List.mem_reverse.mp ha)
  have hrev : (before ++ c :: after).reverse = after.reverse ++ c :: before.reverse := by
    rw [List.reverse_append, List.reverse_cons, List.append_assoc]
    rfl
  unfold strrchr
  rw [hrev, List.dropWhile_append_of_pos hall, List.takeWhile_append_of_pos hall,
    List.dropWhile_cons_of_neg (by simp), List.takeWhile_cons_of_neg (by simp)]
  dsimp only
  rw [List.reverse_reverse, List.append_nil, List.reverse_reverse]

/-- A string has a last occurrence of a character, or none. -/
theorem exists_strrchr (s : Bytes) (c : UInt8) :
    c ∉ s ∧ strrchr s c = none ∨ ∃ before after, s = before ++ c :: after ∧ c ∉ after := by
  by_cases h : c ∈ s
  · right
    obtain ⟨after, before, hrev, hafter⟩ := List.eq_append_cons_of_mem (List.mem_reverse.mpr h)
    refine ⟨before.reverse, after.reverse, ?_, fun hmem => hafter (List.mem_reverse.mp hmem)⟩
    rw [← List.reverse_reverse s, hrev, List.reverse_append, List.reverse_cons, List.append_assoc]
    rfl
  · left
    refine ⟨h, ?_⟩
    unfold strrchr
    rw [List.dropWhile_eq_nil_iff.mpr]
    intro a ha
    exact decide_eq_true fun heq : a = c => h (heq ▸ List.mem_reverse.mp ha)

/-- A digit is no space, and no sign. -/
theorem not_isspace_of_digit {c : UInt8} (h : (digitValue 10 c).isSome) :
    isspace c = false ∧ c ≠ 0x2d ∧ c ≠ 0x2b := by
  have hrange : 48 ≤ c.toNat ∧ c.toNat ≤ 57 := by
    unfold digitValue at h
    simp only [UInt8.le_iff_toNat_le] at h
    have h48 : (48 : UInt8).toNat = 48 := rfl
    have h57 : (57 : UInt8).toNat = 57 := rfl
    have h97 : (97 : UInt8).toNat = 97 := rfl
    have h65 : (65 : UInt8).toNat = 65 := rfl
    grind
  refine ⟨decide_eq_false fun hspace => ?_, ?_, ?_⟩
  · rcases hspace with rfl | ⟨-, hle⟩
    · exact absurd hrange (by decide)
    · have := UInt8.le_iff_toNat_le.mp hle
      have h13 : (0x0d : UInt8).toNat = 13 := rfl
      omega
  · rintro rfl
    exact absurd hrange (by decide)
  · rintro rfl
    exact absurd hrange (by decide)

/-- **A number that was written is read.** -/
theorem strtonum_showInt {n minval maxval : ℤ} (h0 : 0 ≤ n) (hmin : minval ≤ n)
    (hmax : n ≤ maxval) :
    strtonum (showInt n) minval maxval = some n := by
  obtain ⟨n, rfl⟩ := Int.eq_ofNat_of_zero_le h0
  obtain ⟨hne, hdigits⟩ := numeral_spec (by decide : 10 ≤ 16) (by decide) n
  obtain ⟨c, s, hs⟩ := List.exists_cons_of_ne_nil hne
  have hc := hdigits c (hs ▸ List.mem_cons_self)
  obtain ⟨hspace, hminus, hplus⟩ := not_isspace_of_digit hc
  have hread := @readNumber_numeral 10 (by decide) (by decide) n []
    fun c hc => nomatch hc
  rw [List.append_nil, hs] at hread
  have hshow : showInt n = c :: s := by
    rw [showInt, if_neg (by omega), Int.toNat_natCast, ← hs]
  have hstrtol : strtol 10 (c :: s) = some ((n : ℤ), []) := by
    unfold strtol
    dsimp only
    rw [List.dropWhile_cons_of_neg (by rw [hspace]; exact Bool.false_ne_true)]
    dsimp only
    rw [if_neg hminus, if_neg hplus, List.head?_cons, Option.bind_some]
    obtain ⟨d, hd⟩ := Option.isSome_iff_exists.mp hc
    rw [hd, hread]
    dsimp only
    rw [Int.one_mul]
  rw [strtonum, hshow, hstrtol]
  dsimp only
  rw [if_neg (by omega)]

end Got

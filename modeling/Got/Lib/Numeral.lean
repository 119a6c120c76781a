import Mathlib.Data.UInt
import Mathlib.Data.List.Basic

/-!
# Numerals

A number is written as its digits to some base, of up to sixteen, and read as far as
there are digits. What is written is read again, wherever it stands before something
that is not a digit (`readNumber_numeral`).
-/

namespace Numeral

/-- A digit. -/
def digit (n : ℕ) : UInt8 := if n < 10 then 48 + UInt8.ofNat n else 87 + UInt8.ofNat n

/-- **What a digit stands for**, in either case. -/
def digitValue (base : ℕ) (c : UInt8) : Option ℕ :=
  let n :=
    if 48 ≤ c ∧ c ≤ 57 then c.toNat - 48
    else if 97 ≤ c ∧ c ≤ 122 then c.toNat - 87
    else if 65 ≤ c ∧ c ≤ 90 then c.toNat - 55
    else base
  if n < base then some n else none

/-- The digits of a number, the lowest first, put in front of those there are. -/
def numeralLoop (base : ℕ) : ℕ → ℕ → List UInt8 → List UInt8
  | 0, _, digits => digits
  | fuel + 1, n, digits =>
    if n / base = 0 then digit (n % base) :: digits
    else numeralLoop base fuel (n / base) (digit (n % base) :: digits)

/-- **A number is written.** -/
def numeral (base n : ℕ) : List UInt8 := numeralLoop base (n + 1) n []

/-- A number is written in decimal digits. -/
abbrev decimal (n : ℕ) : List UInt8 := numeral 10 n

/-- **A number is read**, and what follows it is left. -/
def readNumber (base : ℕ) : List UInt8 → ℕ → ℕ × List UInt8
  | [], n => (n, [])
  | c :: text, n =>
    match digitValue base c with
    | some d => readNumber base text (n * base + d)
    | none => (n, c :: text)

variable {base : ℕ}

theorem digitValue_digit_sixteen : ∀ {n : ℕ}, n < 16 → digitValue 16 (digit n) = some n := by decide

/-- A digit is read as what it was written for. -/
theorem digitValue_digit (hbase : base ≤ 16) {n : ℕ} (h : n < base) :
    digitValue base (digit n) = some n := by
  have h16 := digitValue_digit_sixteen (lt_of_lt_of_le h hbase)
  unfold digitValue at h16 ⊢
  dsimp only at h16 ⊢
  split at h16 <;> grind

theorem readNumber_cons (hbase : base ≤ 16) {n : ℕ} (hn : n < base) (text : List UInt8) (m : ℕ) :
    readNumber base (digit n :: text) m = readNumber base text (m * base + n) := by
  rw [readNumber, digitValue_digit hbase hn]

/-- The digits put in front of a text are those of the number. -/
theorem readNumber_numeralLoop (hbase : base ≤ 16) (hpos : 1 < base) {fuel n : ℕ} (h : n < fuel)
    (digits text : List UInt8) :
    ∃ k, ∀ m, readNumber base (numeralLoop base fuel n digits ++ text) m
      = readNumber base (digits ++ text) (m * base ^ k + n) := by
  induction fuel generalizing n digits with
  | zero => omega
  | succ fuel ih =>
    have hmod : n % base < base := Nat.mod_lt n (Nat.zero_lt_of_lt hpos)
    have hdiv := Nat.div_add_mod n base
    rw [numeralLoop]
    split
    · next hzero =>
      rw [hzero, Nat.mul_zero, Nat.zero_add] at hdiv
      refine ⟨1, fun m => ?_⟩
      rw [List.cons_append, readNumber_cons hbase hmod, pow_one, hdiv]
    · next hne =>
      have hlt : n / base < fuel :=
        lt_of_lt_of_le (Nat.div_lt_self (Nat.pos_of_ne_zero fun h0 => hne
          (by rw [h0, Nat.zero_div]))
          hpos) (Nat.le_of_lt_succ h)
      obtain ⟨k, hk⟩ := ih hlt (digit (n % base) :: digits)
      refine ⟨k + 1, fun m => ?_⟩
      have heq : (m * base ^ k + n / base) * base + n % base = m * base ^ (k + 1) + n := by
        rw [Nat.add_mul, Nat.mul_assoc, ← Nat.pow_succ, Nat.add_assoc, Nat.mul_comm (n / base),
          hdiv]
      rw [hk, List.cons_append, readNumber_cons hbase hmod, heq]

/-- **What is written is read again.** -/
theorem readNumber_numeral (hbase : base ≤ 16) (hpos : 1 < base) (n : ℕ) {text : List UInt8}
    (htext : ∀ c ∈ text.head?, digitValue base c = none) :
    readNumber base (numeral base n ++ text) 0 = (n, text) := by
  obtain ⟨k, hk⟩ := readNumber_numeralLoop hbase hpos (Nat.lt_succ_self n) [] text
  rw [numeral, hk, List.nil_append, Nat.zero_mul, Nat.zero_add]
  cases text with
  | nil => rfl
  | cons c text => rw [readNumber, htext c rfl]

/-- All characters of a number are digits, and there is one. -/
theorem numeral_spec (hbase : base ≤ 16) (hpos : 0 < base) (n : ℕ) :
    numeral base n ≠ [] ∧ ∀ c ∈ numeral base n, (digitValue base c).isSome := by
  have hloop : ∀ fuel n digits, (∀ c ∈ digits, (digitValue base c).isSome) →
      (digits ≠ [] ∨ fuel ≠ 0 → numeralLoop base fuel n digits ≠ [])
        ∧ ∀ c ∈ numeralLoop base fuel n digits, (digitValue base c).isSome := by
    intro fuel
    induction fuel with
    | zero => exact fun n digits h => ⟨fun hne => hne.resolve_right (fun h => h rfl), h⟩
    | succ fuel ih =>
      intro n digits h
      have hcons : ∀ c ∈ digit (n % base) :: digits, (digitValue base c).isSome := by
        intro c hc
        rcases List.mem_cons.mp hc with rfl | hc
        · rw [digitValue_digit hbase (Nat.mod_lt n hpos)]
          rfl
        · exact h c hc
      rw [numeralLoop]
      split
      · exact ⟨fun _ => List.cons_ne_nil _ _, hcons⟩
      · have := ih (n / base) _ hcons
        exact ⟨fun _ => this.1 (Or.inl (List.cons_ne_nil _ _)), this.2⟩
  have h := hloop (n + 1) n [] fun c hc => absurd hc List.not_mem_nil
  exact ⟨h.1 (Or.inr (Nat.succ_ne_zero n)), h.2⟩

/-- A number below a power of the base has no more digits than the exponent. -/
theorem length_numeralLoop_le {fuel n k : ℕ} (h : n < base ^ (k + 1))
    (digits : List UInt8) : (numeralLoop base fuel n digits).length ≤ k + 1 + digits.length := by
  induction fuel generalizing n k digits with
  | zero => exact Nat.le_add_left _ _
  | succ fuel ih =>
    rw [numeralLoop]
    split
    · rw [List.length_cons]
      omega
    · next hne =>
      cases k with
      | zero =>
        rw [Nat.zero_add, pow_one] at h
        exact absurd (Nat.div_eq_of_lt h) hne
      | succ k =>
        rw [pow_succ] at h
        have hrest := ih (Nat.div_lt_of_lt_mul (Nat.mul_comm _ base ▸ h))
          (digit (n % base) :: digits)
        rw [List.length_cons] at hrest
        omega

/-- **A number below a power of the base** has no more digits than it says. -/
theorem length_numeral_le {n k : ℕ} (h : n < base ^ (k + 1)) :
    (numeral base n).length ≤ k + 1 := length_numeralLoop_le h []

end Numeral

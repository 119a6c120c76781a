import Mathlib.Data.List.Basic

/-!
# Binary files

A binary file is a sequence of fields. Some of them are tables: records, one
behind the other, all of the same width. `Record` says that a record of some
width can be written and read, and what is here is that the same is then true
of tables (`readTable_eq_ok_iff`): a reader gets some table and some rest
exactly if the file is that table, written out, and that rest.
-/

namespace Records

variable {ε α β : Type}

/-- **Records of width `w`** can be written and read without loss, in both
directions. -/
structure Record (w : ℕ) (enc : α → List β) (dec : List β → α) : Prop where
  length_enc : ∀ a, (enc a).length = w
  dec_enc : ∀ a, dec (enc a) = a
  enc_dec : ∀ b, b.length = w → enc (dec b) = b

/-- The next field of a file, of width `w`, and what follows it. -/
def next (e : ε) (w : ℕ) (bs : List β) : Except ε (List β × List β) :=
  if bs.length < w then .error e else .ok (bs.take w, bs.drop w)

/-- Take `n` records of width `w` apart. -/
def parse (w : ℕ) (dec : List β → α) : ℕ → List β → List α
  | 0, _ => []
  | n + 1, bs => dec (bs.take w) :: parse w dec n (bs.drop w)

/-- Read one record, and what follows it. -/
def readField (e : ε) (w : ℕ) (dec : List β → α) (bs : List β) : Except ε (α × List β) :=
  (next e w bs).map (fun (field, rest) => (dec field, rest))

/-- Read a table of `n` records, and what follows it. -/
def readTable (e : ε) (w : ℕ) (dec : List β → α) (n : ℕ) (bs : List β) :
    Except ε (List α × List β) :=
  (next e (n * w) bs).map (fun (field, rest) => (parse w dec n field, rest))

/-- **Reading a field.** -/
theorem next_eq_ok_iff {e : ε} {w : ℕ} {bs field rest : List β} :
    next e w bs = .ok (field, rest) ↔ field.length = w ∧ bs = field ++ rest := by
  unfold next
  constructor
  · intro h
    split at h
    · exact nomatch h
    · next hw =>
      cases h
      exact ⟨List.length_take_of_le (Nat.not_lt.mp hw), (List.take_append_drop w bs).symm⟩
  · rintro ⟨rfl, rfl⟩
    rw [if_neg (by simp), List.take_left, List.drop_left]

/-- A reader whose result is rearranged. -/
theorem map_eq_ok_iff {γ δ : Type} {f : γ → δ} {x : Except ε γ} {d : δ} :
    x.map f = .ok d ↔ ∃ c, x = .ok c ∧ f c = d := by
  cases x with
  | error e => simp [Except.map]
  | ok c => simp [Except.map]

/-- What was read before some rest of a file. -/
theorem take_sub_length (as bs : List α) :
    (as ++ bs).take ((as ++ bs).length - bs.length) = as := by
  rw [List.length_append, Nat.add_sub_cancel, List.take_left]

variable {w : ℕ} {enc : α → List β} {dec : List β → α}

@[simp] theorem length_parse (n : ℕ) (bs : List β) : (parse w dec n bs).length = n := by
  induction n generalizing bs with
  | zero => rfl
  | succ n ih => rw [parse, List.length_cons, ih]

namespace Record

/-- The size of a table. -/
theorem length_flatMap (h : Record w enc dec) (as : List α) :
    (as.flatMap enc).length = as.length * w := by
  induction as with
  | nil => simp
  | cons a as ih =>
    rw [List.flatMap_cons, List.length_append, h.length_enc, ih, List.length_cons, Nat.succ_mul,
      Nat.add_comm]

/-- **Reading a table undoes writing it.** -/
theorem parse_flatMap (h : Record w enc dec) (as : List α) :
    parse w dec as.length (as.flatMap enc) = as := by
  induction as with
  | nil => rfl
  | cons a as ih =>
    rw [List.length_cons, parse, List.flatMap_cons, List.take_left' (h.length_enc a),
      List.drop_left' (h.length_enc a), h.dec_enc, ih]

/-- **Writing a table undoes reading it.** -/
theorem flatMap_parse (h : Record w enc dec) {n : ℕ} {bs : List β} (hlen : bs.length = n * w) :
    (parse w dec n bs).flatMap enc = bs := by
  induction n generalizing bs with
  | zero =>
    rw [Nat.zero_mul] at hlen
    rw [List.length_eq_zero_iff.mp hlen]
    rfl
  | succ n ih =>
    rw [Nat.succ_mul] at hlen
    rw [parse, List.flatMap_cons, h.enc_dec _ (List.length_take_of_le (by omega)),
      ih (by rw [List.length_drop]; omega), List.take_append_drop]

/-- Two tables of the same size are told apart by what is written. -/
theorem flatMap_inj (h : Record w enc dec) {as as' : List α} (hlen : as.length = as'.length)
    (heq : as.flatMap enc = as'.flatMap enc) : as = as' := by
  rw [← h.parse_flatMap as, ← h.parse_flatMap as', heq, hlen]

/-- **What a reader of one record gets.** -/
theorem readField_eq_ok_iff (h : Record w enc dec) {e : ε} {bs rest : List β} {a : α} :
    readField e w dec bs = .ok (a, rest) ↔ bs = enc a ++ rest := by
  simp only [readField, map_eq_ok_iff, Prod.exists, next_eq_ok_iff, Prod.mk.injEq]
  constructor
  · rintro ⟨field, rest, ⟨hlen, rfl⟩, rfl, rfl⟩
    rw [h.enc_dec field hlen]
  · rintro rfl
    exact ⟨enc a, rest, ⟨h.length_enc a, rfl⟩, h.dec_enc a, rfl⟩

/-- A record that was written is read. -/
@[simp] theorem readField_append (h : Record w enc dec) {e : ε} (a : α) (rest : List β) :
    readField e w dec (enc a ++ rest) = .ok (a, rest) :=
  h.readField_eq_ok_iff.mpr rfl

/-- **What a reader of a table gets.** -/
theorem readTable_eq_ok_iff (h : Record w enc dec) {e : ε} {n : ℕ} {bs rest : List β}
    {as : List α} :
    readTable e w dec n bs = .ok (as, rest) ↔ as.length = n ∧ bs = as.flatMap enc ++ rest := by
  simp only [readTable, map_eq_ok_iff, Prod.exists, next_eq_ok_iff, Prod.mk.injEq]
  constructor
  · rintro ⟨field, rest, ⟨hlen, rfl⟩, rfl, rfl⟩
    exact ⟨length_parse n field, by rw [h.flatMap_parse hlen]⟩
  · rintro ⟨rfl, rfl⟩
    exact ⟨as.flatMap enc, rest, ⟨h.length_flatMap as, rfl⟩, h.parse_flatMap as, rfl⟩

end Record

end Records

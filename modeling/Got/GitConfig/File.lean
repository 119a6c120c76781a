import Got.GitConfig.ByLine

/-!
# A configuration file, line by line

A line of the form `ws* tag ws* = ws* value ws*` should set the tag to the value, and nothing that
a line does should reach into the lines behind it. Both are so of a line that stays in itself and
whose white space is as the parser expects it (`lineEffect_iff`): the parser takes blanks and tabs
only where it goes over white space behind a tag or in front of a value, and it trims a value only
if the line is not indented.

If this is so of all lines of a file, in the sections they are in, then the file is parsed line by
line; and only then (`parsedByLine_iff`).
-/

namespace Got

namespace GitConfig

variable {sectionName : Option Bytes} {k : ℕ}

/-! ## Local effects -/

/-- **A line is on its own** if whatever is behind it is not changed, and has no influence. -/
def Local (sectionName : Option Bytes) (line : Bytes) : Prop :=
  ∃ sectionName' setting own, own.length = line.length + 1 ∧ ∀ rest,
    confParseLine sectionName (line ++ 0 :: rest) line.length =
      .ok (sectionName', setting, own ++ rest)

/-- What is done with a line alone is done with it in every file. -/
theorem confParseLine_rest {line : Bytes} {result : LineResult}
    (h : confParseLine sectionName (line ++ [0]) line.length = .ok result) (rest : Bytes) :
    confParseLine sectionName (line ++ 0 :: rest) line.length =
      .ok (result.1, result.2.1, result.2.2 ++ rest) ∧ result.2.2.length = line.length + 1 := by
  obtain ⟨hrest, hlen⟩ := confParseLine_frame h rest
  rw [List.append_assoc] at hrest
  rw [List.length_append] at hlen
  exact ⟨hrest, hlen⟩

/-- A line can be read on its own exactly when nothing in it reaches past its end. -/
theorem local_iff {line : Bytes} : Local sectionName line ↔ StaysInLine sectionName line := by
  constructor
  · rintro ⟨sectionName', setting, own, -, h⟩
    by_contra hstays
    have herror := (confParseLine_line sectionName line).2 hstays
    rw [h []] at herror
    exact nomatch herror
  · intro hstays
    obtain ⟨setting, own, h⟩ := (confParseLine_line sectionName line).1 hstays
    exact ⟨_, setting, own, (confParseLine_rest h []).2, fun rest => (confParseLine_rest h rest).1⟩

/-! ## Lines which are assignments -/

/-- The parts of a line `ws* tag ws* = ws* value ws*`. -/
structure Assignment where
  ws₀ : Bytes
  tag : Bytes
  ws₁ : Bytes
  ws₂ : Bytes
  value : Bytes
  ws₃ : Bytes

namespace Assignment

variable (a : Assignment)

/-- The line with these parts. -/
def line : Bytes := a.ws₀ ++ (a.tag ++ a.ws₁ ++ 0x3d :: (a.ws₂ ++ a.value ++ a.ws₃))

/-- **The form of an assignment.** The line is no comment, and does not name a section. -/
structure Formed : Prop where
  /-- the white space -/
  space : ∀ c ∈ a.ws₀ ++ a.ws₁ ++ a.ws₂ ++ a.ws₃, isspace c = true
  /-- a tag is a word -/
  tag_ne_nil : a.tag ≠ []
  /-- without an equal sign -/
  tag_word : ∀ c ∈ a.tag, isspace c = false ∧ c ≠ 0x3d
  /-- the value is trimmed -/
  trimmed : ∀ c, a.value.head? = some c ∨ a.value.getLast? = some c → isspace c = false
  /-- the first byte of the line -/
  plain : a.line.head? ≠ some 0x23 ∧ a.line.head? ≠ some 0x3b ∧ a.line.head? ≠ some 0x5b

/-- **The white space is where the parser looks for it**, and the strings are C strings. -/
structure Plain : Prop where
  /-- no string ends early -/
  no_zero : 0 ∉ a.tag ∧ 0 ∉ a.value
  /-- a blank or a tab ends the tag -/
  ws₁ : ∀ c, a.ws₁.head? = some c → isBlank c = true
  /-- blanks and tabs are skipped in front of the value -/
  ws₂ : ∀ c ∈ a.ws₂, isBlank c = true
  /-- also if there is none -/
  empty : a.value = [] → ∀ c ∈ a.ws₃, isBlank c = true
  /-- the value is not trimmed if the line is indented -/
  indented : a.ws₀ ≠ [] → a.value ≠ [] → a.ws₃ = []

end Assignment

theorem isspace_of_isBlank {c : UInt8} (h : isBlank c = true) : isspace c = true := by
  rcases of_decide_eq_true h with rfl | rfl <;> rfl

theorem ne_zero_of_isspace {c : UInt8} (h : isspace c = true) : c ≠ 0 := by
  rintro rfl
  exact absurd h (by decide)

/-- The tag is read as it is if it is a C string and a blank, or nothing, follows. -/
theorem takeWhile_tag_iff {tag ws : Bytes} (htag : ∀ c ∈ tag, isspace c = false ∧ c ≠ 0x3d)
    (hws : ∀ c ∈ ws, isspace c = true) :
    (tag ++ ws).takeWhile (!endsTag ·) = tag ↔
      0 ∉ tag ∧ ∀ c, ws.head? = some c → isBlank c = true := by
  by_cases hzero : (0 : UInt8) ∈ tag
  · obtain ⟨pre, post, rfl, -⟩ := List.eq_append_cons_of_mem hzero
    rw [List.append_assoc, List.cons_append, takeWhile_append_cons (by decide)]
    refine iff_of_false (fun h => ?_) (fun h => h.1 hzero)
    have hlen : (pre.takeWhile (!endsTag ·)).length ≤ pre.length :=
      (List.takeWhile_sublist _).length_le
    rw [h, List.length_append, List.length_cons] at hlen
    omega
  · have hpos : ∀ c ∈ tag, (!endsTag c) = true := by
      intro c hc
      obtain ⟨hspace, heq⟩ := htag c hc
      refine Bool.not_eq_true' _ |>.mpr (decide_eq_false ?_)
      rintro (rfl | rfl | rfl | rfl)
      · exact absurd hspace (by decide)
      · exact absurd hspace (by decide)
      · exact heq rfl
      · exact hzero hc
    rw [List.takeWhile_append_of_pos hpos, List.append_right_eq_self]
    cases ws with
    | nil => exact iff_of_true rfl ⟨hzero, fun _ h => nomatch h⟩
    | cons b ws =>
      have hb := hws b List.mem_cons_self
      have hends : endsTag b = isBlank b := by
        have hzero' := ne_zero_of_isspace hb
        have heq : b ≠ 0x3d := by
          rintro rfl
          exact absurd hb (by decide)
        unfold endsTag isBlank
        simp only [heq, hzero', or_false]
      rw [List.takeWhile_cons, hends]
      cases hblank : isBlank b with
      | true => exact iff_of_true rfl ⟨hzero, fun c hc => Option.some.inj hc ▸ hblank⟩
      | false =>
        refine iff_of_false (fun h => nomatch h) fun h => ?_
        rw [h.2 b rfl] at hblank
        exact nomatch hblank

/-! ## Values -/

/-- The value begins with the first byte behind the blanks. -/
theorem valueOf_cons {post bs : Bytes} {b : UInt8} (h : post.dropWhile isBlank = b :: bs)
    (hb : b ≠ 0) : ∃ more, valueOf k post = b :: more := by
  unfold valueOf
  dsimp only
  rw [h]
  split
  · exact ⟨_, List.takeWhile_cons_of_pos (decide_eq_true hb)⟩
  · exact ⟨_, List.takeWhile_cons_of_pos (decide_eq_true hb)⟩

/-- Trailing white space does not belong to the value. -/
theorem rdropWhile_append_of_pos {bs ws : Bytes} {p : UInt8 → Bool} (hws : ∀ c ∈ ws, p c = true)
    (hlast : ∀ c, bs.getLast? = some c → p c = false) : (bs ++ ws).rdropWhile p = bs := by
  have hall : ∀ c ∈ ws.reverse, p c = true := fun c hc => hws c (List.mem_reverse.mp hc)
  rw [List.rdropWhile, List.reverse_append, List.dropWhile_append_of_pos hall]
  rcases List.eq_nil_or_concat bs with rfl | ⟨bs, b, rfl⟩
  · rfl
  · rw [List.concat_eq_append] at hlast ⊢
    have hb : p b = false := hlast b List.getLast?_concat
    rw [List.reverse_concat, List.dropWhile_cons_of_neg (by rw [hb]; decide),
      List.reverse_cons, List.reverse_reverse]

theorem takeWhile_ne_zero {bs : Bytes} (h : 0 ∉ bs) : bs.takeWhile (· ≠ 0) = bs :=
  List.takeWhile_eq_self_iff.mpr fun _ hc => decide_eq_true fun heq => h (heq ▸ hc)

theorem not_mem_of_takeWhile_append {bs rest : Bytes}
    (h : (bs ++ rest).takeWhile (· ≠ 0) = bs) : 0 ∉ bs := by
  intro hzero
  rw [← h] at hzero
  exact absurd (List.mem_takeWhile_imp hzero) (by decide)

/-- **When the value is read as it is.** -/
theorem valueOf_eq_iff {ws₂ value ws₃ : Bytes} (hws₂ : ∀ c ∈ ws₂, isspace c = true)
    (hws₃ : ∀ c ∈ ws₃, isspace c = true)
    (htrim : ∀ c, value.head? = some c ∨ value.getLast? = some c → isspace c = false) :
    valueOf k (ws₂ ++ value ++ ws₃) = value ↔
      0 ∉ value ∧ (∀ c ∈ ws₂, isBlank c = true) ∧
        (value = [] → ∀ c ∈ ws₃, isBlank c = true) ∧ (k ≠ 0 → value ≠ [] → ws₃ = []) := by
  by_cases hblank : ∀ c ∈ ws₂, isBlank c = true
  · have hdrop : (ws₂ ++ value ++ ws₃).dropWhile isBlank = (value ++ ws₃).dropWhile isBlank := by
      rw [List.append_assoc, List.dropWhile_append_of_pos hblank]
    cases value with
    | nil =>
      have hnil : valueOf k (ws₂ ++ [] ++ ws₃) = [] ↔ ws₃.dropWhile isBlank = [] := by
        rw [List.nil_append] at hdrop
        cases hw : ws₃.dropWhile isBlank with
        | nil =>
          unfold valueOf
          dsimp only
          rw [hdrop, hw, trimTail, ite_self]
          exact iff_of_true rfl rfl
        | cons b bs =>
          have hb := hws₃ b ((List.dropWhile_sublist _).subset (hw ▸ List.mem_cons_self))
          obtain ⟨more, hmore⟩ := valueOf_cons (k := k) (hdrop.trans hw) (ne_zero_of_isspace hb)
          rw [hmore]
          exact iff_of_false (fun h => by cases h) (fun h => by cases h)
      rw [hnil, List.dropWhile_eq_nil_iff]
      exact ⟨fun h => ⟨List.not_mem_nil, hblank, fun _ => h, fun _ hne => absurd rfl hne⟩,
        fun h => h.2.2.1 rfl⟩
    | cons v vs =>
      have hv : ¬ isBlank v = true := fun h => by
        have := htrim v (.inl rfl)
        rw [isspace_of_isBlank h] at this
        cases this
      rw [List.cons_append, List.dropWhile_cons_of_neg hv] at hdrop
      unfold valueOf
      dsimp only
      rw [hdrop]
      by_cases hk : k = 0
      · have htail : trimTail (v :: (vs ++ ws₃)) = v :: vs := by
          rw [trimTail, rdropWhile_append_of_pos hws₃ fun c hc => htrim c (.inr ?_)]
          rw [List.getLast?_cons, hc]
          rfl
        rw [if_pos hk, htail]
        refine ⟨fun h => ?_, fun h => takeWhile_ne_zero h.1⟩
        rw [← List.append_nil (v :: vs)] at h
        refine ⟨not_mem_of_takeWhile_append (h.trans (List.append_nil _)), hblank,
          fun h => (by cases h), fun h => absurd hk h⟩
      · rw [if_neg hk, ← List.cons_append]
        constructor
        · intro h
          have hzero := not_mem_of_takeWhile_append h
          have hall : ∀ c ∈ v :: vs ++ ws₃, decide (c ≠ 0) = true := by
            intro c hc
            refine decide_eq_true ?_
            rintro rfl
            exact (List.mem_append.mp hc).elim hzero fun hc => ne_zero_of_isspace (hws₃ 0 hc) rfl
          rw [List.takeWhile_eq_self_iff.mpr hall, List.append_right_eq_self] at h
          exact ⟨hzero, hblank, fun h => (by cases h), fun _ _ => h⟩
        · rintro ⟨hzero, -, -, hend⟩
          rw [hend hk (by simp), List.append_nil, takeWhile_ne_zero hzero]
  · refine iff_of_false (fun h => ?_) fun h => hblank h.2.1
    -- the value that is read begins with white space
    have hne : ws₂.dropWhile isBlank ≠ [] := fun hnil => hblank (List.dropWhile_eq_nil_iff.mp hnil)
    obtain ⟨b, bs, hb⟩ := List.exists_cons_of_ne_nil hne
    have hspace := hws₂ b ((List.dropWhile_sublist _).subset (hb ▸ List.mem_cons_self))
    have hdrop : (ws₂ ++ value ++ ws₃).dropWhile isBlank = b :: (bs ++ (value ++ ws₃)) := by
      rw [List.append_assoc, List.dropWhile_append, hb]
      rfl
    obtain ⟨more, hmore⟩ := valueOf_cons (k := k) hdrop (ne_zero_of_isspace hspace)
    have hhead := htrim b (.inl (by rw [← h, hmore]; rfl))
    rw [hspace] at hhead
    cases hhead

/-! ## The effect of a line -/

/-- **The effect of a line**: it is its own, and if the line is an assignment in a section it sets
the tag to the value. -/
def LineEffect (sectionName : Option Bytes) (line : Bytes) : Prop :=
  Local sectionName line ∧ ∀ a : Assignment, a.Formed → a.line = line
    → ∀ sec, sectionName = some sec →
    ∀ rest, ∃ own, confParseLine sectionName (line ++ 0 :: rest) line.length =
      .ok (sectionName, some (sec, a.tag, a.value), own)

/-- **When the parser gets a line right.** -/
def LineOk (sectionName : Option Bytes) (line : Bytes) : Prop :=
  StaysInLine sectionName line ∧
    ∀ a : Assignment, a.Formed → a.line = line → sectionName ≠ none → a.Plain

/-- What is in front of the tag is what the line is indented by. -/
theorem Assignment.Formed.indent_eq {a : Assignment} (ha : a.Formed) :
    indent a.line = a.ws₀.length := by
  have hws₀ : ∀ c ∈ a.ws₀, isspace c = true := fun c hc =>
    ha.space c (List.mem_append_left _ (List.mem_append_left _ (List.mem_append_left _ hc)))
  obtain ⟨b, bs, htag⟩ := List.exists_cons_of_ne_nil ha.tag_ne_nil
  have hb := (ha.tag_word b (htag ▸ List.mem_cons_self)).1
  rw [indent, Assignment.line, List.takeWhile_append_of_pos hws₀, htag, List.cons_append,
    List.cons_append, List.takeWhile_cons_of_neg (by rw [hb]; decide), List.append_nil]

/-- What the parser makes of an assignment, and when this is what it should be. -/
theorem confParseLine_assignment {a : Assignment} (ha : a.Formed) (sec : Bytes)
    (hindent : indent a.line ≤ 1) :
    ∃ tag value own, confParseLine (some sec) (a.line ++ [0]) a.line.length =
      .ok (some sec, some (sec, tag, value), own) ∧ (tag = a.tag ∧ value = a.value ↔ a.Plain) := by
  have hspace : ∀ ws ∈ [a.ws₀, a.ws₁, a.ws₂, a.ws₃], ∀ c ∈ ws, isspace c = true := by
    intro ws hws c hc
    refine ha.space c ?_
    simp only [List.mem_cons, List.not_mem_nil, or_false] at hws
    rcases hws with rfl | rfl | rfl | rfl <;> simp [hc]
  have hdrop : a.line.drop (indent a.line)
    = a.tag ++ a.ws₁ ++ 0x3d :: (a.ws₂ ++ a.value ++ a.ws₃) := by
    rw [ha.indent_eq, Assignment.line, List.drop_left]
  have hpre : (0x3d : UInt8) ∉ a.tag ++ a.ws₁ := by
    intro hmem
    rcases List.mem_append.mp hmem with hmem | hmem
    · exact (ha.tag_word _ hmem).2 rfl
    · exact absurd (hspace a.ws₁ (by simp) _ hmem) (by decide)
  obtain ⟨own, hassign⟩ :=
    parseAssignment_spec hindent sec (a.tag ++ a.ws₁) (a.ws₂ ++ a.value ++ a.ws₃)
  refine ⟨(a.tag ++ a.ws₁).takeWhile (!endsTag ·),
    valueOf (indent a.line) (a.ws₂ ++ a.value ++ a.ws₃),
      (a.line ++ [0]).take (indent a.line) ++ own,
    ?_, ?_⟩
  · rw [confParseLine_equals (some sec) ha.plain hdrop hpre]
    dsimp only
    rw [hassign]
    rfl
  · rw [takeWhile_tag_iff ha.tag_word (hspace a.ws₁ (by simp)),
      valueOf_eq_iff (hspace a.ws₂ (by simp)) (hspace a.ws₃ (by simp)) ha.trimmed, ha.indent_eq]
    have hws₀ : a.ws₀.length ≠ 0 ↔ a.ws₀ ≠ [] := not_congr List.length_eq_zero_iff
    rw [hws₀]
    exact ⟨fun ⟨⟨h₁, h₂⟩, h₃, h₄, h₅, h₆⟩ => ⟨⟨h₁, h₃⟩, h₂, h₄, h₅, h₆⟩,
      fun ⟨⟨h₁, h₃⟩, h₂, h₄, h₅, h₆⟩ => ⟨⟨h₁, h₂⟩, h₃, h₄, h₅, h₆⟩⟩

/-- **What one line does.** It acts as git reads it exactly when it meets the condition on lines. -/
theorem lineEffect_iff (sectionName : Option Bytes) (line : Bytes) :
    LineEffect sectionName line ↔ LineOk sectionName line := by
  unfold LineEffect LineOk
  rw [local_iff]
  refine and_congr_right fun hstays => forall_congr' fun a => forall_congr' fun ha => ?_
  refine forall_congr' fun hline => ?_
  subst hline
  cases sectionName with
  | none => exact ⟨fun _ h => absurd rfl h, fun _ _ h => nomatch h⟩
  | some sec =>
    obtain ⟨hhash, hsemi, hheader⟩ := ha.plain
    have hindent : indent a.line ≤ 1 := by
      rcases hstays with h | h | h | h | ⟨h, -⟩
      · exact absurd h hhash
      · exact absurd h hsemi
      · exact absurd h hheader
      · exact h
      · exact nomatch h
    obtain ⟨tag, value, own, hparse, hplain⟩ := confParseLine_assignment ha sec hindent
    rw [← hplain]
    constructor
    · intro h _
      obtain ⟨own', h⟩ := h sec rfl []
      rw [hparse] at h
      cases h
      exact ⟨rfl, rfl⟩
    · intro h sec' hsec rest
      obtain ⟨rfl, rfl⟩ := h (by simp)
      obtain rfl := Option.some.inj hsec
      exact ⟨_, (confParseLine_rest hparse rest).1⟩

/-! ## The file -/

/-- **The lines of a file**, of the first of which a part was seen. An escaped newline is no end of
a line: two blanks stand for it. What is behind the last newline is no line. -/
def logicalLines : (line content : Bytes) → List Bytes
  | _, [] => []
  | line, c :: content =>
    if c = 0x0a then
      if line.getLast? = some 0x5c then logicalLines (line.dropLast ++ [0x20, 0x20]) content
      else line :: logicalLines [] content
    else logicalLines (line ++ [c]) content

/-- The lines with the sections in which they are. -/
def inSections : Option Bytes → List Bytes → List (Option Bytes × Bytes)
  | _, [] => []
  | sectionName, line :: lines =>
    (sectionName, line) :: inSections (sectionAfter sectionName line) lines

/-- What a line sets on its own. -/
def lineSettings (sectionName : Option Bytes) (line : Bytes) : List Setting :=
  match confParseLine sectionName (line ++ [0]) line.length with
  | .ok (_, some setting, _) => [setting]
  | _ => []

/-- **A file is parsed line by line** if each line has its effect in the section it is in, and
what the file sets is what its lines set. -/
def ParsedByLine (content : Bytes) : Prop :=
  (∀ l ∈ inSections none (logicalLines [] content), LineEffect l.1 l.2) ∧
    confParse content =
      .ok ((inSections none (logicalLines [] content)).flatMap fun l => lineSettings l.1 l.2)

/-- The loop goes on behind a line as if it were the first one. -/
theorem confParseLoop_spec (content : Bytes) (sectionName : Option Bytes) (line : Bytes)
    (h : ∀ l ∈ inSections sectionName (logicalLines line content), StaysInLine l.1 l.2) :
    confParseLoop sectionName content.length line content =
      .ok ((inSections sectionName (logicalLines line content)).flatMap
        fun l => lineSettings l.1 l.2) := by
  induction content generalizing sectionName line with
  | nil => rfl
  | cons c content ih =>
    rw [List.length_cons, confParseLoop]
    rw [logicalLines] at h ⊢
    by_cases hnewline : c = 0x0a
    · rw [if_pos hnewline] at h ⊢
      rw [if_pos hnewline]
      by_cases hescaped : line.getLast? = some 0x5c
      · rw [if_pos hescaped] at h ⊢
        rw [if_pos hescaped]
        exact ih _ _ h
      · rw [if_neg hescaped] at h ⊢
        rw [if_neg hescaped]
        rw [inSections, List.forall_mem_cons] at h
        obtain ⟨setting, own, hparse⟩ := (confParseLine_line sectionName line).1 h.1
        obtain ⟨hrest, hlen⟩ := confParseLine_rest hparse content
        dsimp only at hrest hlen
        rw [hrest, ok_bind]
        dsimp only
        rw [← hlen, List.drop_left, ih _ _ h.2, ok_bind, inSections, List.flatMap_cons]
        have hsettings : lineSettings sectionName line = setting.toList := by
          rw [lineSettings, hparse]
          cases setting <;> rfl
        rw [hsettings]
        rfl
    · rw [if_neg hnewline] at h ⊢
      rw [if_neg hnewline]
      exact ih _ _ h

/-- **A file is parsed line by line exactly if the parser gets each line right.** In an indented
line the parser goes as many bytes beyond the end as the line is indented, and may read and change
what is there. The condition is one on each line, in the section it is in, and says nothing of the
lines behind it: what a line that is right does is the same whatever follows. -/
theorem parsedByLine_iff (content : Bytes) :
    ParsedByLine content ↔ ∀ l ∈ inSections none (logicalLines [] content), LineOk l.1 l.2 := by
  have hlines : (∀ l ∈ inSections none (logicalLines [] content), LineEffect l.1 l.2) ↔
      ∀ l ∈ inSections none (logicalLines [] content), LineOk l.1 l.2 :=
    forall₂_congr fun l _ => lineEffect_iff l.1 l.2
  unfold ParsedByLine
  rw [hlines]
  refine and_iff_left_of_imp fun h => ?_
  exact confParseLoop_spec content none [] fun l hl => (h l hl).1

/-- `[core]`, and two lines which are indented by two tabs: `a = b` and `c = d`. -/
def tabbedConfig : Bytes :=
  [0x5b, 0x63, 0x6f, 0x72, 0x65, 0x5d, 0x0a, 0x09, 0x09, 0x61, 0x20, 0x3d, 0x20, 0x62, 0x0a,
    0x09, 0x09, 0x63, 0x20, 0x3d, 0x20, 0x64, 0x0a]

/-- **The trailing white space of `a = b` is looked for in the line behind it**, where a tab is
overwritten by a zero. So `c` is not set; a tag without a name is. -/
theorem not_parsedByLine_tabbedConfig :
    confParse tabbedConfig = .ok [([0x63, 0x6f, 0x72, 0x65], [0x61], [0x62]),
      ([0x63, 0x6f, 0x72, 0x65], [], [0x64])] ∧ ¬ ParsedByLine tabbedConfig := by
  refine ⟨by decide, fun h => ?_⟩
  have hmem : (some [0x63, 0x6f, 0x72, 0x65], [0x09, 0x09, 0x61, 0x20, 0x3d, 0x20, 0x62]) ∈
      inSections none (logicalLines [] tabbedConfig) := by decide
  have hlocal := local_iff.mp (h.1 _ hmem).1
  revert hlocal
  unfold StaysInLine
  decide

end GitConfig

end Got

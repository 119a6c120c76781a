import Mathlib.Data.List.Basic

/-!
# Lines

A text is cut into lines, each of which ends where an end of line is. The last
line may lack one. What is cut is put together again by joining the lines
(`flatten_lines`), and lines that all have their end are found again wherever
they stand (`lines_append`).
-/

namespace Lines

variable {α : Type}

/-- **Cut a text into lines.** -/
def lines (isEnd : α → Bool) : List α → List (List α)
  | [] => []
  | a :: text =>
    if isEnd a then [a] :: lines isEnd text
    else
      match lines isEnd text with
      | [] => [[a]]
      | line :: rest => (a :: line) :: rest

/-- **A line with its end.** -/
def Terminated (isEnd : α → Bool) (line : List α) : Prop :=
  ∃ body e, line = body ++ [e] ∧ isEnd e = true ∧ ∀ a ∈ body, isEnd a = false

variable {isEnd : α → Bool} {text line : List α} {ls : List (List α)}

@[simp] theorem lines_nil : lines isEnd [] = [] := rfl

/-- The lines of a text put together are the text. -/
@[simp] theorem flatten_lines (isEnd : α → Bool) (text : List α) :
    (lines isEnd text).flatten = text := by
  induction text with
  | nil => rfl
  | cons a text ih =>
    rw [lines]
    split
    · rw [List.flatten_cons, ih]
      rfl
    · split
      · next heq =>
        rw [heq] at ih
        rw [← ih]
        rfl
      · next line rest heq =>
        rw [heq] at ih
        rw [← ih]
        rfl

/-- No line is empty: it has its end or something before it. -/
theorem ne_nil_of_mem_lines (h : line ∈ lines isEnd text) : line ≠ [] := by
  induction text generalizing line with
  | nil => exact absurd h List.not_mem_nil
  | cons a text ih =>
    rw [lines] at h
    split at h
    · rcases List.mem_cons.mp h with rfl | h
      · exact List.cons_ne_nil _ _
      · exact ih h
    · split at h
      · exact List.mem_singleton.mp h ▸ List.cons_ne_nil _ _
      · next line' rest heq =>
        rcases List.mem_cons.mp h with rfl | h
        · exact List.cons_ne_nil _ _
        · exact ih (heq ▸ List.mem_cons_of_mem _ h)

/-- **A line that is not the last one has its end.** -/
theorem terminated_of_lines (h : lines isEnd text = line :: ls) (hne : ls ≠ []) :
    Terminated isEnd line := by
  induction text generalizing line ls with
  | nil => nomatch h
  | cons a text ih =>
    rw [lines] at h
    split at h
    · next ha =>
      obtain ⟨rfl, -⟩ := List.cons.inj h
      exact ⟨[], a, rfl, ha, fun _ hmem => absurd hmem List.not_mem_nil⟩
    · next ha =>
      split at h
      · exact absurd (List.cons.inj h).2.symm hne
      · next line' rest heq =>
        obtain ⟨rfl, rfl⟩ := List.cons.inj h
        obtain ⟨body, e, rfl, he, hbody⟩ := ih heq hne
        exact ⟨a :: body, e, rfl, he,
          List.forall_mem_cons.mpr ⟨Bool.eq_false_iff.mpr ha, hbody⟩⟩

/-- There is no end within a line. -/
theorem isEnd_of_mem_dropLast (h : line ∈ lines isEnd text) :
    ∀ a ∈ line.dropLast, isEnd a = false := by
  induction text generalizing line with
  | nil => exact absurd h List.not_mem_nil
  | cons a text ih =>
    rw [lines] at h
    split at h
    · rcases List.mem_cons.mp h with rfl | h
      · exact fun _ hmem => absurd hmem List.not_mem_nil
      · exact ih h
    · next ha =>
      split at h
      · rw [List.mem_singleton.mp h]
        exact fun _ hmem => absurd hmem List.not_mem_nil
      · next line' rest heq =>
        rcases List.mem_cons.mp h with rfl | h
        · have hne : line' ≠ [] := ne_nil_of_mem_lines (heq ▸ List.mem_cons_self)
          rw [List.dropLast_cons_of_ne_nil hne]
          exact List.forall_mem_cons.mpr ⟨Bool.eq_false_iff.mpr ha, ih (heq ▸ List.mem_cons_self)⟩
        · exact ih (heq ▸ List.mem_cons_of_mem _ h)

/-- A line with its end is the first line of a text that begins with it. -/
theorem lines_cons (h : Terminated isEnd line) (text : List α) :
    lines isEnd (line ++ text) = line :: lines isEnd text := by
  obtain ⟨body, e, rfl, he, hbody⟩ := h
  induction body with
  | nil => rw [List.nil_append, List.singleton_append, lines, if_pos he]
  | cons a body ih =>
    rw [List.cons_append, List.cons_append, lines,
      if_neg (by rw [hbody a List.mem_cons_self]; exact Bool.false_ne_true),
      ih fun b hb => hbody b (List.mem_cons_of_mem _ hb)]

/-- **Lines with their ends are found again.** -/
theorem lines_append (h : ∀ line ∈ ls, Terminated isEnd line) (text : List α) :
    lines isEnd (ls.flatten ++ text) = ls ++ lines isEnd text := by
  induction ls with
  | nil => rfl
  | cons line ls ih =>
    rw [List.flatten_cons, List.append_assoc, lines_cons (h line List.mem_cons_self),
      ih fun l hl => h l (List.mem_cons_of_mem _ hl)]
    rfl

end Lines

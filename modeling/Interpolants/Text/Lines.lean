/-!
# Interpolants — lines

A text or a stream of bytes is cut at its line ends.
-/

namespace Interpolants.Text

/-- The pieces between the separators: one more than there are separators. -/
def pieces {α : Type} [DecidableEq α] (separator : α) : List α → List (List α)
  | [] => [[]]
  | a :: rest =>
    if a = separator then [] :: pieces separator rest
    else
      match pieces separator rest with
      | [] => [[a]]
      | piece :: more => (a :: piece) :: more

/-- The pieces that a separator ends. The last may go without one, if it is not empty. -/
def terminated {α : Type} [DecidableEq α] (separator : α) (text : List α) : List (List α) :=
  if (pieces separator text).getLast? = some [] then (pieces separator text).dropLast
  else pieces separator text

/-- Joins some lines by line ends. -/
def unlines (lines : List (List Char)) : List Char :=
  ['\n'].intercalate lines

theorem pieces_ne_nil {α : Type} [DecidableEq α] (separator : α) (text : List α) :
    pieces separator text ≠ [] := by
  unfold pieces
  split
  · simp
  · split
    · simp
    · split <;> simp

/-- Cutting loses nothing: the pieces make up the text again. -/
theorem intercalate_pieces {α : Type} [DecidableEq α] (separator : α) (text : List α) :
    [separator].intercalate (pieces separator text) = text := by
  induction text with
  | nil => rfl
  | cons a rest ih =>
    have hne := pieces_ne_nil separator rest
    unfold pieces
    cases hp : pieces separator rest with
    | nil => exact absurd hp hne
    | cons piece more =>
      rw [hp] at ih
      by_cases h : a = separator
      · simp only [h, if_true]
        simpa [List.intercalate] using ih
      · simp only [h, if_false]
        cases more <;> simpa [List.intercalate] using ih

end Interpolants.Text

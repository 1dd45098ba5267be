import Caret.Text.Ranges
/-!
# Lines

Results:
* `lines_ne_nil`: every text has a line, the last one without a line feed.
* `unlines_lines`: the lines with line feeds between them are the text.
-/
namespace Caret.Text

/-- Put a character in front of the first line. -/
def consFirst (c : Char) : List Text → List Text
  | [] => [[c]]
  | line :: rest => (c :: line) :: rest

/-- The lines of a text, split at every line feed and without it. -/
def lines (text : Text) : List Text :=
  text.foldr (fun c lines => if c = '\n' then [] :: lines else consFirst c lines) [[]]

/-- Lines with a line feed between each two. -/
def unlines (lines : List Text) : Text := ['\n'].intercalate lines

@[simp] theorem lines_nil : lines [] = [[]] := rfl

theorem lines_cons (c : Char) (rest : Text) :
    lines (c :: rest) = if c = '\n' then [] :: lines rest else consFirst c (lines rest) := rfl

theorem lines_ne_nil (text : Text) : lines text ≠ [] := by
  induction text with
  | nil => simp
  | cons c rest ih =>
    rw [lines_cons]
    split
    · simp
    · cases h : lines rest <;> simp [consFirst]

theorem unlines_consFirst (c : Char) {lines : List Text} (h : lines ≠ []) :
    unlines (consFirst c lines) = c :: unlines lines := by
  match lines, h with
  | [line], _ => simp [unlines, consFirst, List.intercalate]
  | line :: next :: rest, _ => simp [unlines, consFirst, List.intercalate]

theorem unlines_lines (text : Text) : unlines (lines text) = text := by
  induction text with
  | nil => rfl
  | cons c rest ih =>
    rw [lines_cons]
    split
    · next h =>
      subst h
      cases hl : lines rest with
      | nil => exact absurd hl (lines_ne_nil rest)
      | cons line more => rw [hl] at ih; simpa [unlines, List.intercalate] using ih
    · rw [unlines_consFirst c (lines_ne_nil rest), ih]

end Caret.Text

import Caret.Text.Numeric
import Caret.Text.Slice
/-!
# What has been typed

The dotted name that ends at the cursor, divided at its last dot.

Results:
* `Parts.concat_ofPath`: the parts and the dot make up the text.
-/
namespace Caret.Completion

/-- A character of an identifier. -/
def isWordChar (c : Char) : Bool := c == '_' || Text.isAlphanumeric c

/-- A dotted name, divided for completion. -/
structure Parts where
  /-- What stands before the last dot. -/
  path : Text
  hasDot : Bool
  /-- The identifier being typed. -/
  name : Text
  deriving DecidableEq, Repr

/-- Divide a text into the identifier at its end, the dot before that, and what is before the
dot. -/
def Parts.ofPath (text : Text) : Parts :=
  let name := (text.reverse.takeWhile isWordChar).reverse
  let head := (text.reverse.dropWhile isWordChar).reverse
  if head.getLast? = some '.' then ⟨head.dropLast, true, name⟩ else ⟨head, false, name⟩

/-- The dotted name that ends at a position, on its line. -/
def pathUntil (source : Text) (pos : Position) : Text :=
  let line := source.between ⟨pos.line, 0⟩ pos
  (line.reverse.takeWhile fun c => c == '.' || isWordChar c).reverse

theorem Parts.concat_ofPath (text : Text) :
    (ofPath text).path ++ (if (ofPath text).hasDot then ['.'] else []) ++ (ofPath text).name =
      text := by
  have split : (text.reverse.dropWhile isWordChar).reverse ++
      (text.reverse.takeWhile isWordChar).reverse = text := by
    rw [← List.reverse_append, List.takeWhile_append_dropWhile, List.reverse_reverse]
  rw [ofPath]
  split
  · next h =>
    obtain ⟨init, hl⟩ := List.getLast?_eq_some_iff.1 h
    simpa [hl] using split
  · simpa using split

end Caret.Completion

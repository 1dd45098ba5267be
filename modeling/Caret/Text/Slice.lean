import Caret.Position
import Caret.Text.Lines
/-!
# Text between two positions
-/
namespace Caret.Text

/-- A line without the carriage return at its end, if it has one. -/
def dropReturn (line : Text) : Text := if line.getLast? = some '\r' then line.dropLast else line

/-- The lines of a source, without the carriage returns at their ends. -/
def sourceLines (source : Text) : List Text := source.lines.map dropReturn

/-- Apply `f` to the first line. -/
def onFirst (f : Text → Text) : List Text → List Text
  | [] => []
  | line :: rest => f line :: rest

/-- Apply `f` to the last line. -/
def onLast (f : Text → Text) : List Text → List Text
  | [] => []
  | [line] => [f line]
  | line :: rest => line :: onLast f rest

/-- The text from one position up to another. A position behind the end of a line or of the source
is taken back to that end. On a single line the end is cut off before the start. -/
def between (source : Text) (start stop : Position) : Text :=
  let lines := sourceLines source
  let first := start.line - 1
  let last := min stop.line lines.length
  let selected := (lines.take last).drop first
  unlines (onFirst (·.drop start.column) (onLast (·.take stop.column) selected))

end Caret.Text

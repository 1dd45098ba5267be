import Caret.Text.Quoted
/-!
# JSON values

Values and their layout over several lines: two spaces for each level, one element or field a line,
nothing between the brackets of an empty value. Fields are written in the order given.
-/
namespace Caret

/-- A JSON value; its numbers are integers. -/
inductive Json
  | null
  | bool (b : Bool)
  | int (n : Int)
  | string (s : String)
  | array (elements : List Json)
  | object (fields : List (String × Json))

namespace Json

def nat (n : Nat) : Json := .int n

def text (t : Text) : Json := .string (String.ofList t)

/-- The value, or null if there is none. -/
def orNull : Option Json → Json
  | some j => j
  | none => null

/-- A character as it stands between quotes: controls below the space and the two special signs are
escaped, everything else is itself. -/
def escapeChar (c : Char) : Text :=
  if c = '"' ∨ c = '\\' then ['\\', c]
  else if c = '\x08' then ['\\', 'b']
  else if c = '\x0c' then ['\\', 'f']
  else if c = '\n' then ['\\', 'n']
  else if c = '\r' then ['\\', 'r']
  else if c = '\t' then ['\\', 't']
  else if c < ' ' then
    ['\\', 'u', '0', '0', Text.hexDigit (c.toNat / 16), Text.hexDigit (c.toNat % 16)]
  else [c]

/-- A string in quotes. -/
def quote (s : String) : String :=
  String.ofList (['"'] ++ s.toList.flatMap escapeChar ++ ['"'])

/-- The start of a line at this depth. -/
def margin (depth : Nat) : String := String.ofList (List.replicate (2 * depth) ' ')

mutual

/-- The value as it stands at this depth. -/
def layout (depth : Nat) : Json → String
  | null => "null"
  | bool true => "true"
  | bool false => "false"
  | int n => toString n
  | string s => quote s
  | array [] => "[]"
  | array (e :: rest) =>
    "[\n" ++ margin (depth + 1) ++ layout (depth + 1) e ++ layoutElements (depth + 1) rest ++
      "\n" ++ margin depth ++ "]"
  | object [] => "\x7b\x7d"
  | object ((key, value) :: rest) =>
    "\x7b\n" ++ margin (depth + 1) ++ quote key ++ ": " ++ layout (depth + 1) value ++
      layoutFields (depth + 1) rest ++ "\n" ++ margin depth ++ "\x7d"

/-- The elements after the first. -/
def layoutElements (depth : Nat) : List Json → String
  | [] => ""
  | e :: rest => ",\n" ++ margin depth ++ layout depth e ++ layoutElements depth rest

/-- The fields after the first. -/
def layoutFields (depth : Nat) : List (String × Json) → String
  | [] => ""
  | (key, value) :: rest =>
    ",\n" ++ margin depth ++ quote key ++ ": " ++ layout depth value ++ layoutFields depth rest

end

def pretty (j : Json) : String := j.layout 0

end Json

end Caret

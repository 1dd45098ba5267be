import Caret.Position
import Caret.Vocabulary.Operator
/-!
# Tokens

A token is a lexeme of Python source with its place and the text that was passed over before it.
Written one after the other, trivia and value, the tokens of a source are the source.
-/
namespace Caret

/-- The type of a token. Every operator is a type of its own; reserved words are names. -/
inductive TokenKind
  | name
  | number
  | string
  | op (operator : Operator)
  /-- The end of a logical line. -/
  | newline
  | indent
  | dedent
  /-- The end of the source. -/
  | endMarker
  /-- What cannot be read as any other token. -/
  | error
  deriving DecidableEq, Repr

namespace TokenKind

/-- Every token type, in order. -/
def all : List TokenKind :=
  [.name, .number, .string] ++ Operator.all.map .op ++
    [.newline, .indent, .dedent, .endMarker, .error]

/-- The name of the type; all operators share one. -/
def title : TokenKind → String
  | .name => "NAME"
  | .number => "NUMBER"
  | .string => "STRING"
  | .op _ => "OP"
  | .newline => "NEWLINE"
  | .indent => "INDENT"
  | .dedent => "DEDENT"
  | .endMarker => "ENDMARKER"
  | .error => "ERRORTOKEN"

/-- How the type is shown: an operator as its spelling in single quotes, all others by name. -/
def render : TokenKind → String
  | .op o => s!"'{o.spelling}'"
  | kind => kind.title

/-- The type that a grammar description calls by this name. -/
def ofTerminal? : String → Option TokenKind
  | "NAME" => some .name
  | "NUMBER" => some .number
  | "STRING" => some .string
  | "NEWLINE" => some .newline
  | "INDENT" => some .indent
  | "DEDENT" => some .dedent
  | "ENDMARKER" => some .endMarker
  | _ => none

theorem mem_all (kind : TokenKind) : kind ∈ all := by
  cases kind with
  | op o => simp [all, Operator.mem_all]
  | _ => simp [all]

end TokenKind

/-- A token. -/
structure Token where
  kind : TokenKind
  value : Text
  /-- What stands between the token before and this one: white space, comments, blank lines, line
  continuations and line breaks inside brackets. -/
  trivia : Text
  start : Position
  deriving DecidableEq, Repr

/-- The position after the token's value. -/
def Token.stop (t : Token) : Position := t.start.advancedBy t.value

/-- The text of the tokens, one after the other. -/
def Token.concat (tokens : List Token) : Text := tokens.flatMap fun t => t.trivia ++ t.value

end Caret

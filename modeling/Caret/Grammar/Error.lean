import Caret.Text.Quoted
/-!
# Why a grammar description is refused
-/
namespace Caret

/-- A piece of a rule in a grammar description. -/
inductive Piece
  /-- A rule or token name. -/
  | word (text : Text)
  /-- A keyword or operator, with its quotes. -/
  | literal (text : Text)
  /-- A sign of the notation itself. -/
  | sign (c : Char)
  deriving DecidableEq, Repr

/-- How a message shows a piece. -/
def Piece.render : Piece → String
  | .word text => s!"Name({Text.quoted text})"
  | .literal text => s!"Literal({Text.quoted text})"
  | .sign c => s!"Op({Text.quotedChar c})"

/-- How a message shows what was found where something else was expected. -/
def Piece.renderFound : Option Piece → String
  | some piece => s!"Some({piece.render})"
  | none => "None"

/-- What is wrong with the notation of a description. -/
inductive NotationFault
  | unexpectedCharacter (c : Char)
  | unterminatedLiteral
  /-- A line that continues a rule comes before any rule. -/
  | strayContinuation
  | expectedRuleName (found : Option Piece)
  | expectedSign (sign : Char) (found : Option Piece)
  | expectedItem (found : Option Piece)
  /-- A rule goes on behind its right-hand side. -/
  | trailingPiece (found : Piece) (rule : Text)
  deriving DecidableEq, Repr

def NotationFault.message : NotationFault → String
  | .unexpectedCharacter c => s!"unexpected character {Text.quotedChar c}"
  | .unterminatedLiteral => "unterminated literal"
  | .strayContinuation => "continuation line before the first rule"
  | .expectedRuleName found => s!"expected rule name, found {Piece.renderFound found}"
  | .expectedSign sign found => s!"expected '{sign}', found {Piece.renderFound found}"
  | .expectedItem found => s!"expected (...), NAME or STRING, found {Piece.renderFound found}"
  | .trailingPiece found rule =>
    s!"unexpected {found.render} after rule `{String.ofList rule}`"

/-- Why no parse tables can be made of a description. -/
inductive GrammarError
  | malformed (line : Nat) (fault : NotationFault)
  /-- The description holds no rule. -/
  | empty
  | duplicateRule (rule : Text)
  /-- A name in `rule` is neither a rule nor a token type. -/
  | unknownToken (rule name : Text)
  | unknownKeyword (rule spelling : Text)
  | unknownOperator (rule spelling : Text)
  /-- A rule can start with itself. -/
  | leftRecursion (rule : Text)
  /-- Two ways to start `rule` share the terminal `label`. -/
  | ambiguous (rule label first second : Text)
  deriving DecidableEq, Repr

namespace GrammarError

def message : GrammarError → String
  | .malformed line fault => s!"grammar syntax error on line {line}: {fault.message}"
  | .empty => "grammar defines no rules"
  | .duplicateRule rule => s!"rule `{String.ofList rule}` is defined twice"
  | .unknownToken rule name =>
    s!"rule `{String.ofList rule}` references `{String.ofList name}`, " ++
      "which is neither a rule nor a token name"
  | .unknownKeyword rule spelling =>
    s!"rule `{String.ofList rule}` uses {String.ofList spelling}, " ++
      "which is not a registered keyword"
  | .unknownOperator rule spelling =>
    s!"rule `{String.ofList rule}` uses {String.ofList spelling}, " ++
      "which is not a registered operator"
  | .leftRecursion rule => s!"rule `{String.ofList rule}` is left-recursive"
  | .ambiguous rule label first second =>
    s!"rule `{String.ofList rule}` is ambiguous: {String.ofList label} is in the first sets of " ++
      s!"{String.ofList first} as well as {String.ofList second}"

/-- The code under which the error is reported. -/
def code : GrammarError → String
  | .malformed .. => "seer_syntax::grammar::syntax"
  | .empty => "seer_syntax::grammar::empty"
  | .duplicateRule _ => "seer_syntax::grammar::duplicate_rule"
  | .unknownToken .. => "seer_syntax::grammar::unknown_token"
  | .unknownKeyword .. => "seer_syntax::grammar::unknown_keyword"
  | .unknownOperator .. => "seer_syntax::grammar::unknown_operator"
  | .leftRecursion _ => "seer_syntax::grammar::left_recursion"
  | .ambiguous .. => "seer_syntax::grammar::ambiguous"

/-- Advice that goes with the error. -/
def help? : GrammarError → Option String
  | .unknownKeyword .. => some "keywords must exist in seer_core::lang::keywords"
  | _ => none

end GrammarError

end Caret

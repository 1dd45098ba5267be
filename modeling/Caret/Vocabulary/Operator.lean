import Caret.Text.Ranges
import Caret.Vocabulary.Release
/-!
# Operators and delimiters

Every operator and delimiter of Python 3, each a token type of its own.

Results:
* `ofText?_spelling`: every operator is found under its spelling.
* `spelling_length`: a spelling has one to three characters.
-/
namespace Caret

/-- An operator or delimiter, named as the language's own token list names it. -/
inductive Operator
  | lPar | rPar | lSqb | rSqb | lBrace | rBrace | colon | comma | semi | dot | ellipsis
  | rArrow | at | plus | minus | star | doubleStar | slash | doubleSlash | percent | tilde
  | vBar | amper | circumflex | leftShift | rightShift | less | greater | eqEqual | notEqual
  | lessEqual | greaterEqual | equal | plusEqual | minEqual | starEqual | doubleStarEqual
  | slashEqual | doubleSlashEqual | percentEqual | atEqual | vBarEqual | amperEqual
  | circumflexEqual | leftShiftEqual | rightShiftEqual
  deriving DecidableEq, Repr

/-- What an operator is for. -/
inductive OperatorCategory
  | bracket | delimiter | arithmetic | bitwise | comparison | assignment
  deriving DecidableEq, Repr

namespace Operator

/-- Every operator, in registry order. -/
def all : List Operator := [
  .lPar, .rPar, .lSqb, .rSqb, .lBrace, .rBrace, .colon, .comma, .semi, .dot, .ellipsis, .rArrow,
  .at, .plus, .minus, .star, .doubleStar, .slash, .doubleSlash, .percent, .tilde, .vBar, .amper,
  .circumflex, .leftShift, .rightShift, .less, .greater, .eqEqual, .notEqual, .lessEqual,
  .greaterEqual, .equal, .plusEqual, .minEqual, .starEqual, .doubleStarEqual, .slashEqual,
  .doubleSlashEqual, .percentEqual, .atEqual, .vBarEqual, .amperEqual, .circumflexEqual,
  .leftShiftEqual, .rightShiftEqual]

/-- Place in the registry. -/
def index (o : Operator) : Nat := o.ctorIdx

def spelling : Operator → String
  | .lPar => "("
  | .rPar => ")"
  | .lSqb => "["
  | .rSqb => "]"
  | .lBrace => "\x7b"
  | .rBrace => "\x7d"
  | .colon => ":"
  | .comma => ","
  | .semi => ";"
  | .dot => "."
  | .ellipsis => "..."
  | .rArrow => "->"
  | .at => "@"
  | .plus => "+"
  | .minus => "-"
  | .star => "*"
  | .doubleStar => "**"
  | .slash => "/"
  | .doubleSlash => "//"
  | .percent => "%"
  | .tilde => "~"
  | .vBar => "|"
  | .amper => "&"
  | .circumflex => "^"
  | .leftShift => "<<"
  | .rightShift => ">>"
  | .less => "<"
  | .greater => ">"
  | .eqEqual => "=="
  | .notEqual => "!="
  | .lessEqual => "<="
  | .greaterEqual => ">="
  | .equal => "="
  | .plusEqual => "+="
  | .minEqual => "-="
  | .starEqual => "*="
  | .doubleStarEqual => "**="
  | .slashEqual => "/="
  | .doubleSlashEqual => "//="
  | .percentEqual => "%="
  | .atEqual => "@="
  | .vBarEqual => "|="
  | .amperEqual => "&="
  | .circumflexEqual => "^="
  | .leftShiftEqual => "<<="
  | .rightShiftEqual => ">>="

def category : Operator → OperatorCategory
  | .lPar | .rPar | .lSqb | .rSqb | .lBrace | .rBrace => .bracket
  | .colon | .comma | .semi | .dot | .ellipsis | .rArrow | .at => .delimiter
  | .plus | .minus | .star | .doubleStar | .slash | .doubleSlash | .percent => .arithmetic
  | .tilde | .vBar | .amper | .circumflex | .leftShift | .rightShift => .bitwise
  | .less | .greater | .eqEqual | .notEqual | .lessEqual | .greaterEqual => .comparison
  | .equal | .plusEqual | .minEqual | .starEqual | .doubleStarEqual | .slashEqual
  | .doubleSlashEqual | .percentEqual | .atEqual | .vBarEqual | .amperEqual
  | .circumflexEqual | .leftShiftEqual | .rightShiftEqual => .assignment

/-- The release of the language that introduced it. -/
def since : Operator → Release
  | .ellipsis | .rArrow => ⟨3, 0⟩
  | .atEqual => ⟨3, 5⟩
  | _ => ⟨2, 0⟩

/-- An opening bracket. -/
def opens : Operator → Bool
  | .lPar | .lSqb | .lBrace => true
  | _ => false

/-- A closing bracket. -/
def closes : Operator → Bool
  | .rPar | .rSqb | .rBrace => true
  | _ => false

/-- How many brackets are open after it; a closing bracket with none open changes nothing. -/
def depthAfter (o : Operator) (depth : Nat) : Nat :=
  if o.opens then depth + 1 else if o.closes then depth - 1 else depth

/-- The operator of exactly this spelling. -/
def ofText? (text : Text) : Option Operator :=
  let spelling := String.ofList text
  all.find? (·.spelling == spelling)

/-- Characters in the longest spelling. -/
def maxLength : Nat := 3

/-- The operator with the longest spelling that the text starts with. -/
def atFront? (text : Text) : Option Operator :=
  [3, 2, 1].findSome? fun n => ofText? (text.take n)

theorem mem_all (o : Operator) : o ∈ all := by cases o <;> decide

theorem all_getElem?_index (o : Operator) : all[o.index]? = some o := by cases o <;> rfl

theorem ofText?_spelling (o : Operator) : ofText? o.spelling.toList = some o := by
  cases o <;> decide

theorem spelling_length (o : Operator) :
    1 ≤ o.spelling.length ∧ o.spelling.length ≤ maxLength := by
  cases o <;> decide

end Operator

end Caret

import Caret.Text.Ranges
/-!
# Reserved words

The reserved words of Python 3 in the order the language lists them, each with its spelling and its
role. `match`, `case`, `type`, `async` and `await` are ordinary names here.
-/
namespace Caret

/-- A reserved word. -/
inductive Keyword
  | kwFalse | kwNone | kwTrue | kwAnd | kwAs | kwAssert | kwBreak | kwClass | kwContinue
  | kwDef | kwDel | kwElif | kwElse | kwExcept | kwFinally | kwFor | kwFrom | kwGlobal | kwIf
  | kwImport | kwIn | kwIs | kwLambda | kwNonlocal | kwNot | kwOr | kwPass | kwRaise | kwReturn
  | kwTry | kwWhile | kwWith | kwYield
  deriving DecidableEq, Repr

/-- What a reserved word is for. -/
inductive KeywordCategory
  /-- Starts or continues a control flow statement. -/
  | controlFlow
  /-- Introduces a definition. -/
  | definition
  /-- Part of an import. -/
  | importing
  /-- A scope declaration or a simple statement. -/
  | statement
  /-- A constant. -/
  | literal
  /-- An operator that is a word. -/
  | operator
  deriving DecidableEq, Repr

namespace Keyword

/-- Every reserved word, in registry order. -/
def all : List Keyword := [
  .kwFalse, .kwNone, .kwTrue, .kwAnd, .kwAs, .kwAssert, .kwBreak, .kwClass, .kwContinue, .kwDef,
  .kwDel, .kwElif, .kwElse, .kwExcept, .kwFinally, .kwFor, .kwFrom, .kwGlobal, .kwIf, .kwImport,
  .kwIn, .kwIs, .kwLambda, .kwNonlocal, .kwNot, .kwOr, .kwPass, .kwRaise, .kwReturn, .kwTry,
  .kwWhile, .kwWith, .kwYield]

/-- Place in the registry. -/
def index (k : Keyword) : Nat := k.ctorIdx

def spelling : Keyword → String
  | .kwFalse => "False"
  | .kwNone => "None"
  | .kwTrue => "True"
  | .kwAnd => "and"
  | .kwAs => "as"
  | .kwAssert => "assert"
  | .kwBreak => "break"
  | .kwClass => "class"
  | .kwContinue => "continue"
  | .kwDef => "def"
  | .kwDel => "del"
  | .kwElif => "elif"
  | .kwElse => "else"
  | .kwExcept => "except"
  | .kwFinally => "finally"
  | .kwFor => "for"
  | .kwFrom => "from"
  | .kwGlobal => "global"
  | .kwIf => "if"
  | .kwImport => "import"
  | .kwIn => "in"
  | .kwIs => "is"
  | .kwLambda => "lambda"
  | .kwNonlocal => "nonlocal"
  | .kwNot => "not"
  | .kwOr => "or"
  | .kwPass => "pass"
  | .kwRaise => "raise"
  | .kwReturn => "return"
  | .kwTry => "try"
  | .kwWhile => "while"
  | .kwWith => "with"
  | .kwYield => "yield"

def category : Keyword → KeywordCategory
  | .kwFalse | .kwNone | .kwTrue => .literal
  | .kwAnd | .kwIn | .kwIs | .kwNot | .kwOr => .operator
  | .kwAs | .kwFrom | .kwImport => .importing
  | .kwAssert | .kwDel | .kwGlobal | .kwNonlocal | .kwPass => .statement
  | .kwBreak | .kwContinue | .kwElif | .kwElse | .kwExcept | .kwFinally | .kwFor | .kwIf
  | .kwRaise | .kwReturn | .kwTry | .kwWhile | .kwWith | .kwYield => .controlFlow
  | .kwClass | .kwDef | .kwLambda => .definition

/-- Stands only at the start of a statement. -/
def startsStatement : Keyword → Bool
  | .kwAssert | .kwBreak | .kwClass | .kwContinue | .kwDef | .kwDel | .kwElif | .kwExcept
  | .kwFinally | .kwFrom | .kwGlobal | .kwImport | .kwNonlocal | .kwPass | .kwRaise
  | .kwReturn | .kwTry | .kwWhile | .kwWith => true
  | _ => false

/-- The reserved word of this spelling; letter case counts. -/
def ofText? (text : Text) : Option Keyword :=
  all.find? (·.spelling == String.ofList text)

theorem mem_all (k : Keyword) : k ∈ all := by cases k <;> decide

theorem all_getElem?_index (k : Keyword) : all[k.index]? = some k := by cases k <;> rfl

theorem ofText?_spelling (k : Keyword) : ofText? k.spelling.toList = some k := by
  cases k <;> decide

end Keyword

end Caret

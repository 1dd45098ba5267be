import Caret.Text.Ranges
/-!
# String literals

A literal opens with one quote or three, after letters that say how to read it. A backslash takes
the next character with it. One quote must close on its line; where it does not, only the letters
and the quote are set aside as an error and reading goes on behind them. Three quotes that do not
close set the whole rest aside.

Results:
* `extent_length_pos`: at least the opening quote is taken.
-/
namespace Caret.StringLiteral

def isQuote (c : Char) : Bool := c == '\'' || c == '"'

/-- The letters that may stand before a quote, in lower case. -/
def marks : List Text :=
  [['r'], ['u'], ['b'], ['f'], ['b', 'r'], ['r', 'b'], ['f', 'r'], ['r', 'f']]

/-- May stand before a quote; letter case does not matter. -/
def isMark (word : Text) : Bool := marks.contains (word.map Char.toLower)

/-- Characters up to and with the closing quote of a literal on one line, `read` of them before
`text`; none if the line or the text ends first. -/
def closeAt (quote : Char) : Text → Nat → Option Nat
  | [], _ => none
  | '\\' :: _ :: rest, read => closeAt quote rest (read + 2)
  | c :: rest, read =>
    if c = '\n' ∨ c = '\r' then none
    else if c = quote then some (read + 1)
    else closeAt quote rest (read + 1)

/-- Characters up to and with the three closing quotes, `read` of them before `text`; none if they
do not come. -/
def closeTripleAt (quote : Char) : Text → Nat → Option Nat
  | [], _ => none
  | '\\' :: _ :: rest, read => closeTripleAt quote rest (read + 2)
  | c :: rest, read =>
    if c = quote ∧ rest.take 2 = [quote, quote] then some (read + 3)
    else closeTripleAt quote rest (read + 1)

/-- A literal, or what is left of one that does not close, and its length. -/
structure Extent where
  closed : Bool
  length : Nat

/-- The literal whose opening quote is `quote`, `text` being what follows that quote. -/
def extent (quote : Char) (text : Text) : Extent :=
  if text.take 2 = [quote, quote] then
    let body := text.drop 2
    match closeTripleAt quote body 3 with
    | some length => ⟨true, length⟩
    | none => ⟨false, 3 + body.length⟩
  else
    match closeAt quote text 1 with
    | some length => ⟨true, length⟩
    | none => ⟨false, 1⟩

theorem lt_of_closeAt {quote : Char} {text : Text} {read n : Nat}
    (h : closeAt quote text read = some n) : read < n := by
  fun_induction closeAt quote text read <;> simp_all <;> omega

theorem le_of_closeTripleAt {quote : Char} {text : Text} {read n : Nat}
    (h : closeTripleAt quote text read = some n) : read ≤ n := by
  fun_induction closeTripleAt quote text read <;> simp_all <;> omega

theorem extent_length_pos (quote : Char) (text : Text) : 0 < (extent quote text).length := by
  simp only [extent]
  split <;> split
  · next h => have := le_of_closeTripleAt h; simp only; omega
  · simp only; omega
  · next h => have := lt_of_closeAt h; simp only; omega
  · simp

end Caret.StringLiteral

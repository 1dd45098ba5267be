import Caret.Text.Ranges
/-!
# Numbers

A number is recognised loosely: a base mark and any letters and digits, or digits with an optional
fraction, exponent and imaginary mark. Half-typed numbers are numbers.

Results:
* `length_pos`: where a number starts there is one.
-/
namespace Caret.Numeral

/-- A decimal digit or the mark that groups digits. -/
def isDigitOrMark (c : Char) : Bool := c.isDigit || c == '_'

/-- How many characters at the front satisfy `p`. -/
def runLength (p : Char → Bool) (text : Text) : Nat := (text.takeWhile p).length

/-- Stands after a zero and says that another base follows. -/
def isBaseMark (c : Char) : Bool := ['x', 'X', 'o', 'O', 'b', 'B'].contains c

/-- A point and the digits after it. -/
def fractionLength : Text → Nat
  | '.' :: rest => 1 + runLength isDigitOrMark rest
  | _ => 0

/-- An exponent mark counts only with a digit behind it, a sign between them allowed. -/
def exponentLength : Text → Nat
  | mark :: rest =>
    let sign := match rest with
      | '+' :: _ | '-' :: _ => 1
      | _ => 0
    let digits := rest.drop sign
    if (mark = 'e' ∨ mark = 'E') ∧ digits.head?.any Char.isDigit then
      1 + sign + runLength isDigitOrMark digits
    else 0
  | [] => 0

/-- The mark of an imaginary number. -/
def imaginaryLength : Text → Nat
  | 'j' :: _ | 'J' :: _ => 1
  | _ => 0

/-- Length of a number in base ten. -/
def decimalLength (text : Text) : Nat :=
  let whole := runLength isDigitOrMark text
  let text := text.drop whole
  let fraction := fractionLength text
  let text := text.drop fraction
  let exponent := exponentLength text
  whole + fraction + exponent + imaginaryLength (text.drop exponent)

/-- Length of the number at the front. -/
def length (text : Text) : Nat :=
  match text with
  | '0' :: mark :: rest =>
    if isBaseMark mark then 2 + runLength (fun c => c.isAlphanum || c == '_') rest
    else decimalLength text
  | _ => decimalLength text

/-- A number starts with a digit, or with a point and a digit. -/
def startsAt : Text → Bool
  | c :: rest => c.isDigit || (c == '.' && (rest.head?.any Char.isDigit))
  | [] => false

theorem length_pos {text : Text} (h : startsAt text = true) : 0 < length text := by
  match text with
  | [] => simp [startsAt] at h
  | c :: rest =>
    simp only [startsAt, Bool.or_eq_true, Bool.and_eq_true, beq_iff_eq] at h
    have positive : 0 < decimalLength (c :: rest) := by
      rcases h with h | ⟨rfl, -⟩
      · have : 0 < runLength isDigitOrMark (c :: rest) := by
          simp [runLength, isDigitOrMark, h]
        simp only [decimalLength]; omega
      · have : runLength isDigitOrMark ('.' :: rest) = 0 := by
          simp [runLength, isDigitOrMark]
        simp only [decimalLength, this, List.drop_zero, fractionLength]; omega
    unfold length
    split
    · split
      · omega
      · simp_all
    · exact positive

end Caret.Numeral

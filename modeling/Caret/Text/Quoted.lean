import Caret.Text.Extending
import Caret.Text.Printable
/-!
# Quoted text

How a message shows a piece of source: in quotes, with a backslash before the quote and the
backslash itself, short escapes for tab, line feed, carriage return and NUL, and a code point escape
for every other character that has no form of its own to show or would attach to the one before it.
-/
namespace Caret.Text

/-- A digit of a hexadecimal number, in lower case. -/
def hexDigit (n : Nat) : Char := if n < 10 then Char.ofNat (48 + n) else Char.ofNat (87 + n)

/-- A code point has at most six hexadecimal digits; none is written in front without need. -/
def hexDigits (n : Nat) : Text :=
  let digits := [n / 0x100000, n / 0x10000, n / 0x1000, n / 0x100, n / 0x10].map (· % 16)
  (digits.dropWhile (· == 0) ++ [n % 16]).map hexDigit

/-- A character as it stands between quotes of the kind `quote`. -/
def escapeChar (quote : Char) (c : Char) : Text :=
  if c = '\t' then ['\\', 't']
  else if c = '\r' then ['\\', 'r']
  else if c = '\n' then ['\\', 'n']
  else if c = '\x00' then ['\\', '0']
  else if c = quote || c = '\\' then ['\\', c]
  else if isExtending c || !isPrintable c then
    ['\\', 'u', '\x7b'] ++ hexDigits c.toNat ++ ['\x7d']
  else [c]

/-- A text in double quotes. -/
def quoted (text : Text) : String :=
  String.ofList (['"'] ++ text.flatMap (escapeChar '"') ++ ['"'])

/-- A character in single quotes. -/
def quotedChar (c : Char) : String := String.ofList (['\''] ++ escapeChar '\'' c ++ ['\''])

end Caret.Text

/-!
# Sets of characters

A set of characters as code point ranges in ascending order, ends included.
-/
namespace Caret

/-- Source text: a sequence of Unicode scalar values. -/
abbrev Text := List Char

namespace Text

/-- Code point ranges `(first, last)` in ascending order. -/
abbrev Ranges := List (Nat × Nat)

/-- The code point lies in one of the ranges; the search ends at the first range beyond it. -/
def Ranges.coverNat : Ranges → Nat → Bool
  | [], _ => false
  | (first, last) :: rest, n => !decide (n < first) && (decide (n ≤ last) || coverNat rest n)

/-- The character lies in one of the ranges. -/
def Ranges.cover (ranges : Ranges) (c : Char) : Bool := ranges.coverNat c.toNat

end Text

end Caret

import Caret.Text.Ranges
/-!
# Positions in a source

A position is a line, counted from 1, and a column, counted in characters from 0. Positions are
ordered by line and then by column, which is document order.

Results:
* `advancedBy_append`: writing two texts one after the other moves as far as writing both.
* `le_advancedBy`: writing never moves back.
-/
namespace Caret

/-- A place between two characters of a source. -/
structure Position where
  line : Nat
  column : Nat
  deriving DecidableEq, Repr

namespace Position

/-- The place before the first character of any source. -/
def start : Position := ⟨1, 0⟩

instance : Inhabited Position := ⟨start⟩

/-- By line, then by column. -/
def compare (p q : Position) : Ordering :=
  (Ord.compare p.line q.line).then (Ord.compare p.column q.column)

instance : Ord Position := ⟨Position.compare⟩

instance : LT Position := ⟨fun p q => p.line < q.line ∨ p.line = q.line ∧ p.column < q.column⟩

instance : LE Position := ⟨fun p q => p.line < q.line ∨ p.line = q.line ∧ p.column ≤ q.column⟩

theorem lt_def {p q : Position} :
    p < q ↔ p.line < q.line ∨ p.line = q.line ∧ p.column < q.column := Iff.rfl

theorem le_def {p q : Position} :
    p ≤ q ↔ p.line < q.line ∨ p.line = q.line ∧ p.column ≤ q.column := Iff.rfl

instance (p q : Position) : Decidable (p < q) := decidable_of_iff _ lt_def.symm

instance (p q : Position) : Decidable (p ≤ q) := decidable_of_iff _ le_def.symm

/-- The position after writing one character. -/
def advance (p : Position) (c : Char) : Position :=
  if c = '\n' then ⟨p.line + 1, 0⟩ else ⟨p.line, p.column + 1⟩

/-- The position after writing a text. -/
def advancedBy (p : Position) (text : Text) : Position := text.foldl advance p

def render (p : Position) : String := s!"{p.line}:{p.column}"

theorem le_refl (p : Position) : p ≤ p := Or.inr ⟨rfl, Nat.le_refl _⟩

theorem le_trans {p q r : Position} (h₁ : p ≤ q) (h₂ : q ≤ r) : p ≤ r := by
  simp only [le_def] at *; omega

theorem le_of_lt {p q : Position} (h : p < q) : p ≤ q := by
  simp only [le_def, lt_def] at *; omega

theorem lt_of_le_of_ne {p q : Position} (h : p ≤ q) (ne : p ≠ q) : p < q := by
  cases p
  cases q
  simp only [lt_def, le_def, ne_eq, Position.mk.injEq] at *
  omega

theorem lt_of_le_of_lt {p q r : Position} (h₁ : p ≤ q) (h₂ : q < r) : p < r := by
  simp only [le_def, lt_def] at *; omega

theorem lt_of_lt_of_le {p q r : Position} (h₁ : p < q) (h₂ : q ≤ r) : p < r := by
  simp only [le_def, lt_def] at *; omega

theorem not_lt {p q : Position} : ¬ p < q ↔ q ≤ p := by
  simp only [lt_def, le_def]; omega

theorem le_antisymm {p q : Position} (h : p ≤ q) (h' : q ≤ p) : p = q := by
  cases p
  cases q
  simp only [le_def, Position.mk.injEq] at *
  omega

theorem not_le {p q : Position} : ¬ p ≤ q ↔ q < p := by
  simp only [lt_def, le_def]; omega

@[simp] theorem advancedBy_nil (p : Position) : p.advancedBy [] = p := rfl

@[simp] theorem advancedBy_append (p : Position) (s t : Text) :
    p.advancedBy (s ++ t) = (p.advancedBy s).advancedBy t := by
  simp [advancedBy]

theorem lt_advance (p : Position) (c : Char) : p < p.advance c := by
  unfold advance; split <;> simp [lt_def]

theorem le_advancedBy (p : Position) (text : Text) : p ≤ p.advancedBy text := by
  induction text generalizing p with
  | nil => exact le_refl p
  | cons c rest ih =>
    have h := lt_advance p c
    refine le_trans ?_ (ih (p.advance c))
    simp only [lt_def, le_def] at *; omega

end Position

end Caret

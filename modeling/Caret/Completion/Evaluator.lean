import Caret.Module
/-!
# Meaning, from outside

What names and expressions refer to is asked of an evaluator. The name under the cursor goes to it
as a name; anything else as the expression that owns the leaf under the cursor.

Results:
* `contextResults`: the definitions that a position refers to.
* `sortDefinitions`: definitions by module, line and column, otherwise in the order given.
-/
namespace Caret.Completion

/-- Answers about names and expressions; `δ` is what a definition is to it. -/
structure Evaluator (δ : Type) where
  /-- The definitions of a name. -/
  definitionsOf : Module → Focus → List δ
  /-- What an expression may evaluate to. -/
  valuesOf : Module → Focus → List δ
  /-- The names that can be used at a position. -/
  namesInScope : Module → Position → List Text

/-- The definitions that a position refers to. -/
def contextResults (e : Evaluator δ) (m : Module) (pos : Position) : List δ :=
  match m.nameAt? pos with
  | some name => e.definitionsOf m name
  | none =>
    match (m.leafAt? pos false).bind Focus.parent? with
    | none => []
    | some parent =>
      if parent.tree.title == "atom" then e.valuesOf m parent
      else if parent.tree.title == "trailer" then
        match parent.parent? with
        | some owner => e.valuesOf m owner
        | none => []
      else []

/-- Where a definition is, as far as it is known. -/
structure Site where
  modulePath : Option String
  line : Option Nat
  column : Option Nat
  deriving DecidableEq, Repr

/-- By module, then by line, then by column; what is not known comes first. -/
def Site.compare (a b : Site) : Ordering :=
  (Ord.compare (a.modulePath.getD "") (b.modulePath.getD "")).then
    ((Ord.compare (a.line.getD 0) (b.line.getD 0)).then
      (Ord.compare (a.column.getD 0) (b.column.getD 0)))

/-- Put an element in front of the first one that does not come before it. -/
def insertBy (cmp : α → α → Ordering) (x : α) : List α → List α
  | [] => [x]
  | y :: rest => if cmp x y = .gt then y :: insertBy cmp x rest else x :: y :: rest

/-- Sort; equal elements stay in the order given. -/
def sortBy (cmp : α → α → Ordering) (xs : List α) : List α := xs.foldr (insertBy cmp) []

/-- Sort definitions by where they are. -/
def sortDefinitions (site : δ → Site) (definitions : List δ) : List δ :=
  sortBy (fun a b => (site a).compare (site b)) definitions

theorem perm_insertBy (cmp : α → α → Ordering) (x : α) (xs : List α) :
    (insertBy cmp x xs).Perm (x :: xs) := by
  induction xs with
  | nil => exact .refl _
  | cons y rest ih =>
    rw [insertBy]
    split
    · exact (ih.cons y).trans (.swap x y rest)
    · exact .refl _

theorem perm_sortBy (cmp : α → α → Ordering) (xs : List α) : (sortBy cmp xs).Perm xs := by
  induction xs with
  | nil => exact .refl _
  | cons x rest ih => exact (perm_insertBy cmp x _).trans (ih.cons x)

end Caret.Completion

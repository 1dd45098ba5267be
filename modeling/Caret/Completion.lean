import Caret.Ascending
import Caret.Completion.Evaluator
import Caret.Completion.Expected
import Caret.Completion.Imports
import Caret.Completion.Parts
import Caret.Completion.Snippet
import Caret.Text.Casing
/-!
# Completions at a position

What may be typed at a position is read off the rules left open where the identifier being typed
begins. Reserved words come first, then the names in scope, both as far as they begin with what has
been typed.

Results:
* `complete`: everything found at a position; a place where nothing can be typed is no error.
-/
namespace Caret.Completion

/-- What to offer, and how. -/
structure Config where
  /-- Offer reserved words. -/
  keywords : Bool
  /-- Report the token types that may come next. -/
  tokenKinds : Bool
  /-- Offer names in scope. -/
  names : Bool
  /-- Letter case does not matter. -/
  ignoreCase : Bool
  deriving DecidableEq, Repr

namespace Config

/-- Offer everything; letter case matters. -/
def default : Config := ⟨true, true, true, false⟩

/-- The candidate begins with what has been typed. -/
def accepts (c : Config) (candidate typed : Text) : Bool :=
  if c.ignoreCase then (Text.lowercase typed).isPrefixOf (Text.lowercase candidate)
  else typed.isPrefixOf candidate

end Config

/-- Everything found at a position. -/
structure Report where
  parts : Parts
  /-- What may come next; none where nothing can be typed. -/
  expected : Option Expected
  imports : ImportResolution
  candidates : List Text

/-- What may come next at a position; none where nothing can be typed. -/
def expectedAt (g : Grammar) (source : Text) (m : Module) (pos : Position) :
    Except CompletionError (Option Expected) :=
  match stackAt g source m pos with
  | .ok stack => (expected g stack).map some
  | .error e => if e.isRecoverable then .ok none else .error e

/-- Reserved words, then names, as far as a configuration asks for them. -/
def offered (c : Config) (e : Expected) (hasDot : Bool) (names : List Text) : List Text :=
  (if c.keywords then e.keywords.map (·.spelling.toList) else []) ++
    (if c.names && e.allowsName && !hasDot then Ascending.ofList names else [])

/-- Completions at a position. -/
def complete (g : Grammar) (m : Module) (source : Text) (pos : Position) (evaluator : Evaluator δ)
    (c : Config) : Except CompletionError Report := do
  let parts := Parts.ofPath (pathUntil source pos)
  let nameStart : Position := ⟨pos.line, pos.column - parts.name.length⟩
  let found ← expectedAt g source m nameStart
  let imports := importAt m pos
  let candidates := match found with
    | some e =>
      if imports = .onImportKeyword then []
      else (offered c e parts.hasDot (evaluator.namesInScope m nameStart)).filter
        (c.accepts · parts.name)
    | none => []
  let shown := found.map fun e => if c.tokenKinds then e else { e with kinds := [] }
  pure ⟨parts, shown, imports, candidates⟩

end Caret.Completion

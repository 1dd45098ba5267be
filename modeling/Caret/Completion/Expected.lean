import Caret.Completion.Error
/-!
# What may come next

The grammar allows next what leaves the state of the innermost open frame; where that frame may end,
also what leaves the state of the frame below it. A rule on an arc stands for what it can start
with.

Results:
* `expected`: the reserved words and token types that may come next.
-/
namespace Caret.Completion

/-- What may come next. -/
structure Expected where
  keywords : List Keyword
  kinds : List TokenKind
  /-- The rules whose first terminals were taken in, in the order that happened. -/
  expanded : List Nat
  deriving DecidableEq, Repr

namespace Expected

/-- Nothing yet. -/
def nothing : Expected := ⟨[], [], []⟩

/-- A name may come next. -/
def allowsName (e : Expected) : Bool := e.kinds.contains .name

/-- Each word and type once, words in registry order and types in type order. -/
def sorted (e : Expected) : Expected :=
  ⟨Keyword.all.filter e.keywords.contains, TokenKind.all.filter e.kinds.contains, e.expanded⟩

/-- Take in a label. A rule is taken in once; every level below takes in another rule, so there are
no more levels than rules. -/
def addLabel (g : Grammar) : Nat → Expected → Nat → Except CompletionError Expected
  | 0, e, _ => .ok e
  | n + 1, e, label =>
    match g.label? label with
    | some (.keyword k) => .ok { e with keywords := e.keywords ++ [k] }
    | some (.token kind) => .ok { e with kinds := e.kinds ++ [kind] }
    | some (.rule index) =>
      if e.expanded.contains index then .ok e
      else
        let e := { e with expanded := e.expanded ++ [index] }
        match g.rule? index with
        | some rule => rule.first.foldlM (addLabel g n) e
        | none => .error (.corruptGrammar (.missingRule label))
    | some .empty => .error (.corruptGrammar .emptyInFirst)
    | none => .error (.corruptGrammar (.missingLabel label))

/-- Take in what leaves the innermost of these frames, and what follows if it may end. -/
def scan (g : Grammar) : List Frame → Expected → Except CompletionError Expected
  | [], e => .ok e
  | f :: below, e =>
    f.arcs.foldlM
      (fun e arc =>
        if arc.label = 0 then scan g below e else addLabel g (g.rules.size + 2) e arc.label)
      e

end Expected

/-- What may come next where these frames are open, innermost first. -/
def expected (g : Grammar) (stack : List Frame) : Except CompletionError Expected := do
  pure (← Expected.scan g stack .nothing).sorted

end Caret.Completion

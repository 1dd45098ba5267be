import Caret.Parser.Feed
import Caret.Token.Scanner
import Caret.Tree.Focus
/-!
# Parsed sources and their places

A source is parsed with a line end at its end, added if it has none. In the tree one can look up the
statement, the leaf and the name at a position; a position between two leaves belongs to the one
before it.

Results:
* `Module.parse`: parse a source; only input behind a complete start rule is refused.
* `Module.statementAt?`, `Module.leafAt?`, `Module.nameAt?`: what is at a position.
-/
namespace Caret.Module

/-- The text ends with a line feed. -/
def endsLine (source : Text) : Bool := source.getLast? == some '\n'

/-- The text that is parsed for a source. -/
def completed (source : Text) : Text := if endsLine source then source else source ++ ['\n']

/-- Parse a source. -/
def parse (g : Grammar) (source : Text) : Except ParseError Module := do
  let p ← Parser.feedAll g (tokenize (completed source)) (.new g)
  pure { p.finish g with addedNewline := !endsLine source }

/-- The source. -/
def code (m : Module) : Text := if m.addedNewline then m.root.code.dropLast else m.root.code

/-- An outline of the tree. -/
def dump (m : Module) : String := m.root.dump

/-- Rules that a statement is looked for inside of. -/
def containers : List String :=
  ["decorated", "simple_stmt", "suite", "if_stmt", "while_stmt", "for_stmt", "try_stmt",
    "with_stmt", "funcdef", "classdef"]

mutual

/-- The innermost statement under a branch at this position; none if the position is in a container
but in none of its statements. -/
def statementIn? (pos : Position) (path : List Crumb) : Tree → Option Focus
  | .leaf _ => none
  | .branch rule children => statementAmong? pos rule path [] children

/-- The statement among the children `rest` of a branch: the first that covers the position, or what
is inside it. -/
def statementAmong? (pos : Position) (rule : String) (path : List Crumb) (before : List Tree) :
    List Tree → Option Focus
  | [] => none
  | t :: rest =>
    let crumb : Crumb := ⟨rule, before, rest⟩
    if t.covers pos then
      if !t.isLeaf && containers.contains t.title then statementIn? pos (crumb :: path) t
      else some ⟨t, crumb :: path⟩
    else statementAmong? pos rule path (t :: before) rest

end

/-- The innermost statement at a position, both its ends included. -/
def statementAt? (m : Module) (pos : Position) : Option Focus := statementIn? pos [] m.root

/-- Search by halves for the first child that ends at or after the position, between the children
`lower` and `upper`, in at most so many rounds. -/
def bisect (children : Array Tree) (pos : Position) : Nat → (lower upper : Nat) → Nat
  | 0, lower, _ => lower
  | n + 1, lower, upper =>
    if lower < upper then
      let middle := (lower + upper) / 2
      let stop := ((children[middle]?).map Tree.stop).getD .start
      if pos ≤ stop then bisect children pos n lower middle
      else bisect children pos n (middle + 1) upper
    else lower

mutual

/-- The leaf under a tree at this position. With `inTrivia` the trivia before a leaf belongs to
it. -/
def leafIn? (pos : Position) (inTrivia : Bool) (path : List Crumb) : Tree → Option Focus
  | .leaf l => some ⟨.leaf l, path⟩
  | .branch rule children =>
    leafAmong? pos inTrivia rule path []
      (bisect children.toArray pos children.length 0 (children.length - 1)) children

/-- The leaf in the `skip`-th of the children `rest` of a branch. -/
def leafAmong? (pos : Position) (inTrivia : Bool) (rule : String) (path : List Crumb)
    (before : List Tree) : (skip : Nat) → List Tree → Option Focus
  | _, [] => none
  | skip + 1, t :: rest => leafAmong? pos inTrivia rule path (t :: before) skip rest
  | 0, t :: rest =>
    if !inTrivia && pos < t.start then none
    else leafIn? pos inTrivia (⟨rule, before, rest⟩ :: path) t

end

/-- The leaf at a position; none outside the source. A tree that is a single leaf has none. -/
def leafAt? (m : Module) (pos : Position) (inTrivia : Bool) : Option Focus :=
  if pos < .start || m.root.stop < pos || m.root.isLeaf then none
  else leafIn? pos inTrivia [] m.root

/-- The leaf is a name that covers the position. -/
def isNameAt (pos : Position) (f : Focus) : Bool :=
  match f.tree with
  | .leaf l => l.kind == .name && l.start ≤ pos && pos ≤ l.stop
  | .branch .. => false

/-- The first name that covers the position; reserved words are no names. -/
def nameAt? (m : Module) (pos : Position) : Option Focus :=
  (Focus.root m.root).leaves.find? (isNameAt pos)

end Caret.Module

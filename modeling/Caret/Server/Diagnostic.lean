import Caret.Completion.Evaluator
import Caret.Json
/-!
# Diagnostics

Everything that recovery set aside, for an editor: a broken statement, or a token without a place.
An editor counts lines from 0, and its numbers have 32 bits; an empty range is shown as one
character.

Results:
* `sourcePosition_clientPosition`: a position with a line and within 32 bits comes back unchanged.
* `diagnose`: the diagnostics of a source, in document order.
-/
namespace Caret.Server

/-- A position as an editor counts it: lines and characters from 0. -/
structure ClientPosition where
  line : Nat
  character : Nat
  deriving DecidableEq, Repr

structure Range where
  start : ClientPosition
  stop : ClientPosition
  deriving DecidableEq, Repr

/-- The largest number that an editor takes. -/
def largest : Nat := 4294967295

def sourcePosition (p : ClientPosition) : Position := ⟨p.line + 1, p.character⟩

/-- Numbers that are too large become the largest. -/
def clientPosition (p : Position) : ClientPosition :=
  ⟨min (p.line - 1) largest, min p.column largest⟩

/-- The range between two positions; if it is empty, the character after the first. -/
def range (start stop : Position) : Range :=
  ⟨clientPosition start,
    clientPosition (if stop ≤ start then ⟨start.line, start.column + 1⟩ else stop)⟩

/-- A fault in a source. Every one is an error of this program's. -/
structure Diagnostic where
  range : Range
  code : Option String
  message : String
  deriving DecidableEq, Repr

/-- The diagnostic of a broken statement. -/
def ofBroken (s : BrokenStatement) : Diagnostic :=
  ⟨range s.start s.stop, some "seer::incomplete_statement",
    s!"incomplete {s.title} before {Text.quoted s.nextValue}"⟩

/-- The diagnostic of a token without a place; other leaves have none. -/
def ofLeaf? (l : Leaf) : Option Diagnostic :=
  match l.kind with
  | .error kind =>
    some ⟨range l.start l.stop, some "seer::unexpected_token",
      s!"unexpected {kind.title} {Text.quoted l.value}"⟩
  | _ => none

/-- By the start of the range. -/
def Diagnostic.compare (a b : Diagnostic) : Ordering :=
  (Ord.compare a.range.start.line b.range.start.line).then
    (Ord.compare a.range.start.character b.range.start.character)

/-- What recovery set aside in a source, in document order; at one place broken statements come
first. -/
def diagnose (m : Module) : List Diagnostic :=
  Completion.sortBy Diagnostic.compare
    (m.broken.map ofBroken ++ m.root.leaves.filterMap ofLeaf?)

/-- The diagnostic of a source that is not parsed at all. -/
def refused (e : ParseError) : Diagnostic := ⟨⟨⟨0, 0⟩, ⟨0, 0⟩⟩, none, e.message⟩

def ClientPosition.json (p : ClientPosition) : Json :=
  .object [("character", .nat p.character), ("line", .nat p.line)]

def Range.json (r : Range) : Json := .object [("end", r.stop.json), ("start", r.start.json)]

/-- The diagnostic as it is sent; severity 1 is an error. -/
def Diagnostic.json (d : Diagnostic) : Json :=
  .object ((d.code.map fun code => ("code", Json.string code)).toList ++
    [("message", .string d.message), ("range", d.range.json), ("severity", .nat 1),
      ("source", .string "seer")])

theorem sourcePosition_clientPosition {p : Position} (h : 1 ≤ p.line) (h' : p.line ≤ largest)
    (h'' : p.column ≤ largest) : sourcePosition (clientPosition p) = p := by
  obtain ⟨line, column⟩ := p
  simp only [sourcePosition, clientPosition, Position.mk.injEq] at *
  omega

end Caret.Server

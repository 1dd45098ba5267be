import Caret.Grammar
import Caret.Tree
/-!
# The parser's stack

The parser reads tokens one at a time with one token of foresight. Its stack holds a frame for each
rule in progress; a token is shifted onto the innermost frame, after entering rules that can start
with it and closing rules that may end. A rule with a single child is that child, except for a
source and an expression statement.

Results:
* `Frame.close_cases`: a closed frame is a branch of its children, or its only child.
* `Parser.advance`: shift a token by its label, or say that it has no place.
* `Parser.new_stack`: a new parser has the frame of the start rule.
-/
namespace Caret

/-- A rule in progress. -/
structure Frame where
  rule : RuleTable
  state : Nat
  children : List Tree

namespace Frame

/-- The arcs out of the present state. -/
def arcs (f : Frame) : List Arc := f.rule.arcs f.state

/-- Add a child at the end. -/
def add (f : Frame) (t : Tree) : Frame := { f with children := f.children ++ [t] }

/-- Rules whose branch stays even around a single child. -/
def keepsSingleChild : List String := ["file_input", "expr_stmt"]

/-- The frame's single child stands for it. -/
def collapses (f : Frame) : Bool :=
  f.children.length == 1 && !keepsSingleChild.contains f.rule.name

/-- The tree of a closed frame. -/
def close (f : Frame) : Tree :=
  match f.children with
  | [only] => if keepsSingleChild.contains f.rule.name then .branch f.rule.name [only] else only
  | children => .branch f.rule.name children

/-- A closed frame is its only child, if the rule does not stay around a single one, or else the
branch of its rule around its children. -/
theorem close_cases (f : Frame) :
    (∃ only, f.children = [only] ∧ f.rule.name ∉ keepsSingleChild ∧ f.close = only) ∨
      (f.close = .branch f.rule.name f.children ∧
        (f.children.length = 1 → f.rule.name ∈ keepsSingleChild)) := by
  unfold close
  split
  · next only single =>
    split
    · next keeps => exact .inr ⟨by rw [single], fun _ => List.contains_iff_mem.1 keeps⟩
    · next stays =>
      exact .inl ⟨only, single, fun keeps => stays (List.contains_iff_mem.2 keeps), rfl⟩
  · next several =>
    refine .inr ⟨rfl, fun one => ?_⟩
    obtain ⟨only, single⟩ := List.length_eq_one_iff.1 one
    exact absurd single (several only)

/-- A rule that stays around a single child makes a branch. -/
theorem close_kept {f : Frame} (keeps : f.rule.name ∈ keepsSingleChild) :
    f.close = .branch f.rule.name f.children := by
  rcases f.close_cases with ⟨-, -, stays, -⟩ | ⟨closed, -⟩
  · exact absurd keeps stays
  · exact closed

theorem close_only {r : RuleTable} {s : Nat} {only : Tree}
    (h : keepsSingleChild.contains r.name = false) : close ⟨r, s, [only]⟩ = only := by
  rw [close, h]
  rfl

end Frame

/-- Rules that recovery took off the stack because a token did not fit. -/
structure BrokenStatement where
  /-- The rules and their children, outermost first. -/
  frames : List (String × List Tree)
  /-- The value of the token that did not fit. -/
  nextValue : Text
  start : Position
  /-- The start of the token that did not fit. -/
  stop : Position

namespace BrokenStatement

/-- The outermost rule. -/
def title (s : BrokenStatement) : String := (s.frames.head?.map (·.1)).getD ""

/-- The children of the outermost rule. -/
def nodes (s : BrokenStatement) : List Tree := (s.frames.head?.map (·.2)).getD []

end BrokenStatement

/-- Why a token cannot be parsed at all. -/
inductive ParseError
  /-- The token comes after the start rule was complete. -/
  | tooMuchInput (value : Text) (position : Position)
  deriving DecidableEq, Repr

namespace ParseError

def message : ParseError → String
  | tooMuchInput value position =>
    s!"token {Text.quoted value} at {position.render} arrived after the start rule was complete"

/-- The code under which the error is reported. -/
def code : ParseError → String
  | tooMuchInput .. => "seer_syntax::parse::too_much_input"

def ofToken (t : Token) : ParseError := tooMuchInput t.value t.start

end ParseError

/-- A parse in progress. -/
structure Parser where
  /-- The rules in progress, innermost first. -/
  stack : List Frame
  /-- The tree, once the start rule is complete. -/
  root : Option Tree
  broken : List BrokenStatement
  /-- The depth of each block whose opening token was dropped, innermost first; its closing token is
  dropped too. -/
  omitted : List Nat
  /-- Opening tokens less closing tokens. A dropped opening token is counted, the closing token that
  is dropped for it is not. -/
  depth : Nat
  /-- Leaves and branches made so far. -/
  nodes : Nat

namespace Parser

/-- At the start rule. -/
def new (g : Grammar) : Parser :=
  ⟨(g.start?.map fun rule => ⟨rule, 0, []⟩).toList, none, [], [], 0, 0⟩

/-- The start rule is complete. -/
def isDone (p : Parser) : Bool := p.stack.isEmpty

/-- Hang a tree into the innermost frame; without a frame it is the whole tree. -/
def attach (p : Parser) (t : Tree) : Parser :=
  match p.stack with
  | [] => { p with root := some t }
  | top :: rest => { p with stack := top.add t :: rest }

/-- Close the innermost frame. -/
def pop (p : Parser) : Parser :=
  match p.stack with
  | [] => p
  | top :: rest =>
    let nodes := if top.collapses then p.nodes else p.nodes + 1
    { p with stack := rest, nodes }.attach top.close

/-- Close frames that can do nothing but end, at most so many. -/
def popCompleted : Nat → Parser → Parser
  | 0, p => p
  | n + 1, p =>
    match p.stack with
    | [] => p
    | top :: _ => if top.rule.acceptsOnly top.state then popCompleted n p.pop else p

/-- Move the innermost frame to another state. -/
def moveTo (p : Parser) (state : Nat) : Parser :=
  match p.stack with
  | [] => p
  | top :: rest => { p with stack := { top with state } :: rest }

/-- Make a leaf in the innermost frame. -/
def addLeaf (p : Parser) (l : Leaf) : Parser :=
  { p with nodes := p.nodes + 1 }.attach (.leaf l)

/-- Enter a rule. -/
def push (p : Parser) (rule : RuleTable) (state : Nat) : Parser :=
  let p := p.moveTo state
  { p with stack := ⟨rule, 0, []⟩ :: p.stack }

/-- What the innermost frame can do with a token. -/
inductive Move
  | shift (target : Nat)
  | enter (rule : RuleTable) (target : Nat)

/-- The first arc that takes the label: by carrying it, or by a rule that can start with it. -/
def move? (g : Grammar) (label : Nat) (arcs : List Arc) : Option Move :=
  arcs.findSome? fun arc =>
    if arc.label = label then some (.shift arc.target)
    else
      match g.label? arc.label with
      | some (.rule index) =>
        match g.rule? index with
        | some rule => if rule.first.contains label then some (.enter rule arc.target) else none
        | none => none
      | _ => none

/-- Where a token led. -/
inductive Outcome
  /-- It was shifted; `done` says that the start rule is complete. -/
  | shifted (done : Bool)
  /-- No frame takes it. -/
  | stuck
  /-- The start rule ended before it. -/
  | ended
  /-- More rounds would have been needed; no grammar made from a description comes to this. -/
  | unfinished

/-- Shift a token with this label, entering and closing rules as needed. Closing comes before
entering and no rule can start with itself, so no more rounds are needed than there are frames and
rules. -/
def advance (g : Grammar) (label : Nat) (t : Token) : Nat → Parser → Outcome × Parser
  | 0, p => (.unfinished, p)
  | n + 1, p =>
    match p.stack with
    | [] => (.ended, p)
    | top :: _ =>
      match move? g label top.arcs with
      | some (.shift target) =>
        let isKeyword := match g.label? label with
          | some (.keyword _) => true
          | _ => false
        let leaf : Leaf := ⟨.ofToken isKeyword t.kind, t.value, t.trivia, t.start⟩
        let p := (p.moveTo target).addLeaf leaf
        let p := popCompleted p.stack.length p
        (.shifted p.isDone, p)
      | some (.enter rule target) => advance g label t n (p.push rule target)
      | none =>
        if top.rule.accepts top.state then
          let p := p.pop
          if p.isDone then (.ended, p) else advance g label t n p
        else (.stuck, p)

/-- The label of a token: a name spelled like a reserved word of the grammar is that word. -/
def classify (g : Grammar) (t : Token) : Option Nat :=
  let keyword :=
    if t.kind = .name then (Keyword.ofText? t.value).bind g.keywordLabel? else none
  keyword.or (g.tokenLabel? t.kind)

/-- Shift a token if it has a label and a place. -/
def shift (g : Grammar) (t : Token) (p : Parser) : Outcome × Parser :=
  match classify g t with
  | some label => advance g label t (p.stack.length + g.rules.size + 1) p
  | none => (.stuck, p)

theorem new_stack {g : Grammar} {rule : RuleTable} (h : g.start? = some rule) :
    (new g).stack = [⟨rule, 0, []⟩] := by
  simp [new, h]

end Parser

end Caret

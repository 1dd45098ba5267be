import Caret.Parser.Recovery
/-!
# Feeding tokens

Results:
* `Parser.feed`: one token, with recovery; only a token behind the complete start rule is refused.
* `Parser.finish`: close what is open and give the tree.
-/
namespace Caret

/-- A parsed source. -/
structure Module where
  root : Tree
  broken : List BrokenStatement
  /-- The source had no line end at its end, and one was added. -/
  addedNewline : Bool
  /-- Leaves and branches made for the tree. -/
  nodes : Nat

namespace Parser

/-- Try a token, recovering until it is shifted or absorbed. Every recovery that asks for another
try takes a frame off, so there are no more tries than frames. -/
def offer (g : Grammar) (t : Token) : Nat → Parser → Except ParseError Bool × Parser
  | 0, p => (.ok false, p)
  | n + 1, p =>
    if p.isDone then (.error (.ofToken t), p)
    else
      match shift g t p with
      | (.shifted done, p) => (.ok done, p)
      | (.ended, p) => (.error (.ofToken t), p)
      | (.stuck, p) =>
        match recover t p with
        | (true, p) => offer g t n p
        | (false, p) => (.ok false, p)
      | (.unfinished, p) => (.ok false, p)

/-- Count the block that a token opens or closes. -/
def count (kind : TokenKind) (p : Parser) : Parser :=
  match kind with
  | .indent => { p with depth := p.depth + 1 }
  | .dedent => { p with depth := p.depth - 1 }
  | _ => p

/-- Counting a token changes nothing but the depth. -/
theorem count_eq (kind : TokenKind) (p : Parser) :
    p.count kind = { p with depth := (p.count kind).depth } := by
  unfold count
  split <;> rfl

/-- A token of this type closes the block whose opening token was dropped last. -/
def closesOmitted (kind : TokenKind) (p : Parser) : Bool :=
  kind == .dedent && p.omitted.head? == some p.depth

/-- Feed a token. The answer says whether it completed the start rule. -/
def feed (g : Grammar) (t : Token) (p : Parser) : Except ParseError Bool × Parser :=
  if p.closesOmitted t.kind then (.ok false, { p with omitted := p.omitted.tail })
  else offer g t (p.stack.length + 1) (p.count t.kind)

/-- Feed tokens until one completes the start rule or is refused. -/
def feedAll (g : Grammar) : List Token → Parser → Except ParseError Parser
  | [], p => .ok p
  | t :: rest, p =>
    match feed g t p with
    | (.error e, _) => .error e
    | (.ok true, p) => .ok p
    | (.ok false, p) => feedAll g rest p

/-- Close all frames, at most so many; those without children are dropped, but for the outermost. -/
def closeAll : Nat → Parser → Parser
  | 0, p => p
  | n + 1, p =>
    match p.stack with
    | [] => p
    | top :: rest =>
      if top.children.isEmpty && !rest.isEmpty then closeAll n { p with stack := rest }
      else closeAll n p.pop

/-- Close every open rule and give the tree; without tokens it is an empty branch of the start
rule. -/
def finish (g : Grammar) (p : Parser) : Module :=
  let p := closeAll p.stack.length p
  match p.root with
  | some root => ⟨root, p.broken, false, p.nodes⟩
  | none => ⟨.branch ((g.start?.map (·.name)).getD "file_input") [], p.broken, false, p.nodes + 1⟩

end Parser

end Caret

import Caret.Completion.Error
import Caret.Module
import Caret.Text.Slice
/-!
# The snippet before the cursor

Completion parses the text from the start of the statement around the cursor up to the cursor. A
cursor at the start of a statement belongs to what comes before it.

Results:
* `locate`: the place whose start the snippet begins at; `locate_cases` lists the answers.
* `snippetAt`: the snippet.
* `partialParse`: the stack that a snippet leaves open.
-/
namespace Caret.Completion

/-- What the cursor is in. -/
inductive Located
  /-- The opening or closing of a block, which has no text. -/
  | whitespace
  /-- The statement or leaf that the snippet begins with. -/
  | node (place : Focus)

/-- The place that the position belongs to, before strings and misplaced tokens are ruled out. -/
def placeAt (m : Module) (pos : Position) (place : Focus) : Focus :=
  if pos ≤ place.tree.start then
    match place.previousLeaf? with
    | some previous => (m.statementAt? previous.tree.start).getD previous
    | none => place
  else place

/-- Find the statement around a position, or the leaf there if it is in none. -/
def locate (m : Module) (pos : Position) : Except CompletionError Located :=
  let statement := m.statementAt? pos
  if statement.any fun s => s.tree.title == "indent" || s.tree.title == "dedent" then
    .ok .whitespace
  else
    match statement.or (m.leafAt? pos true) with
    | none => .error (.outOfBounds pos)
    | some place =>
      let place := placeAt m pos place
      let title := place.tree.title
      if title == "error_leaf" || title == "string" then .error (.unparsableContext title pos)
      else .ok (.node place)

/-- Everything that can be located. -/
theorem locate_cases (m : Module) (pos : Position) :
    locate m pos = .ok .whitespace ∨
      (m.statementAt? pos).or (m.leafAt? pos true) = none ∧
        locate m pos = .error (.outOfBounds pos) ∨
      ∃ found, (m.statementAt? pos).or (m.leafAt? pos true) = some found ∧
        (locate m pos = .error (.unparsableContext (placeAt m pos found).tree.title pos) ∨
          locate m pos = .ok (.node (placeAt m pos found))) := by
  unfold locate
  dsimp only
  split
  · exact .inl rfl
  · cases (m.statementAt? pos).or (m.leafAt? pos true) with
    | none => exact .inr (.inl ⟨rfl, rfl⟩)
    | some found =>
      refine .inr (.inr ⟨found, rfl, ?_⟩)
      dsimp only
      split
      · exact .inl rfl
      · exact .inr rfl

/-- A space or a tab. -/
def isPadding (c : Char) : Bool := c == ' ' || c == '\t'

/-- The text without spaces and tabs at its ends; a lone semicolon starts no statement and becomes
nothing. -/
def trimSnippet (code : Text) : Text :=
  let code := ((code.dropWhile isPadding).reverse.dropWhile isPadding).reverse
  if code = [';'] then [] else code

/-- The text of the statement around a position, up to the position. -/
def snippetAt (source : Text) (m : Module) (pos : Position) : Except CompletionError Text := do
  match ← locate m pos with
  | .whitespace => pure []
  | .node place => pure (trimSnippet (source.between place.tree.start pos))

/-- The next thing a truncated text holds. -/
inductive Pull
  | token (t : Token)
  /-- Only the end marker is left. -/
  | endOfInput
  /-- The tokens ended without an end marker. -/
  | exhausted
  deriving DecidableEq, Repr

/-- Take the next token, passing over those that close blocks: a truncated text closes none. -/
def pull : List Token → Pull × List Token
  | [] => (.exhausted, [])
  | t :: rest =>
    match t.kind with
    | .endMarker => (.endOfInput, rest)
    | .dedent => pull rest
    | _ => (.token t, rest)

/-- Feed the tokens of a truncated text up to its end marker. -/
def drive (g : Grammar) : List Token → Parser → Except CompletionError (List Frame)
  | [], _ => .error .endOfInputNotReached
  | t :: rest, p =>
    match t.kind with
    | .endMarker => .ok p.stack
    | .dedent => drive g rest p
    | _ =>
      match Parser.feed g t p with
      | (.error e, _) => .error (.parse e)
      | (.ok true, _) => .error .endOfInputNotReached
      | (.ok false, p) => drive g rest p

/-- The frames that a snippet leaves open, innermost first. -/
def partialParse (g : Grammar) (code : Text) : Except CompletionError (List Frame) :=
  drive g (tokenize code) (.new g)

/-- The frames that are open at a position. -/
def stackAt (g : Grammar) (source : Text) (m : Module) (pos : Position) :
    Except CompletionError (List Frame) := do
  partialParse g (← snippetAt source m pos)

/-- How a dump shows a child of a frame. -/
def showChild : Tree → String
  | .leaf l => Text.quoted l.value
  | .branch rule _ => rule

/-- One line of a dump: rule, state and children of a frame. -/
def showFrame (g : Grammar) (f : Frame) : String :=
  g.ruleName f.rule.index ++ s!" state={f.state} [" ++
    ", ".intercalate (f.children.map showChild) ++ "]\n"

/-- Open frames as text, the outermost first. -/
def dumpStack (g : Grammar) (stack : List Frame) : String :=
  String.join (stack.reverse.map (showFrame g))

/-- The rules of the open frames, the outermost first. -/
def ruleNames (g : Grammar) (stack : List Frame) : List String :=
  stack.reverse.map fun f => g.ruleName f.rule.index

/-- The children of the open frames, the outermost first. -/
def nodes (stack : List Frame) : List Tree := stack.reverse.flatMap (·.children)

end Caret.Completion

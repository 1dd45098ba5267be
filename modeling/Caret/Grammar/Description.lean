import Caret.Grammar.Error
import Caret.Text.Blank
import Caret.Text.Lines
import Caret.Text.Numeric
/-!
# Grammar descriptions

A description is a list of rules, `name: right-hand side`. A line that starts with white space
continues the rule above it; `#` starts a comment, except inside quotes. The right-hand side is
written with the usual signs:

    rhs:  alt ('|' alt)*
    alt:  item+
    item: '[' rhs ']' | atom ['+' | '*']
    atom: '(' rhs ')' | NAME | STRING

Every line is cut into pieces before the first rule is read, so a bad character anywhere comes
before a fault of a rule. A fault inside a rule is reported with the line that the rule starts on.

Results:
* `Rhs.Denotes`: the words that a right-hand side stands for, by the usual reading of the signs.
-/
namespace Caret

/-- The right-hand side of a rule. -/
inductive Rhs
  | label (text : Text)
  | optional (body : Rhs)
  | plus (body : Rhs)
  | star (body : Rhs)
  | seq (first second : Rhs)
  | alt (first second : Rhs)
  deriving DecidableEq, Repr

/-- The words, as lists of labels, that a right-hand side stands for: a label is itself, `[x]` is
`x` or nothing, `x+` is one `x` or more, `x*` any number, juxtaposition is concatenation and `|` is
choice. -/
inductive Rhs.Denotes : Rhs → List Text → Prop
  | label (text : Text) : Denotes (.label text) [text]
  | absent (body : Rhs) : Denotes (.optional body) []
  | present {body : Rhs} {w : List Text} (h : Denotes body w) : Denotes (.optional body) w
  | once {body : Rhs} {w : List Text} (h : Denotes body w) : Denotes (.plus body) w
  | again {body : Rhs} {v w : List Text} (h : Denotes body v) (more : Denotes (.plus body) w) :
      Denotes (.plus body) (v ++ w)
  | none (body : Rhs) : Denotes (.star body) []
  | more {body : Rhs} {v w : List Text} (h : Denotes body v) (more : Denotes (.star body) w) :
      Denotes (.star body) (v ++ w)
  | seq {first second : Rhs} {v w : List Text} (h : Denotes first v) (h' : Denotes second w) :
      Denotes (.seq first second) (v ++ w)
  | left {first second : Rhs} {w : List Text} (h : Denotes first w) : Denotes (.alt first second) w
  | right {first second : Rhs} {w : List Text} (h : Denotes second w) :
      Denotes (.alt first second) w

/-- A rule as written. -/
structure Rule where
  name : Text
  rhs : Rhs
  deriving DecidableEq, Repr

namespace Description

/-- The line without its comment; a quote opens or closes a literal, where `#` is itself. -/
def stripComment : (inLiteral : Bool) → Text → Text
  | _, [] => []
  | inLiteral, c :: rest =>
    if c = '#' ∧ !inLiteral then []
    else c :: stripComment (if c = '\'' then !inLiteral else inLiteral) rest

/-- The signs of the notation. -/
def isSign (c : Char) : Bool := [':', '|', '[', ']', '(', ')', '+', '*'].contains c

def isWordStart (c : Char) : Bool := Text.isAlphabetic c || c == '_'

def isWordContinue (c : Char) : Bool := Text.isAlphanumeric c || c == '_'

/-- The piece being read. -/
inductive Open
  | nothing
  /-- A literal, its characters so far in reverse. -/
  | literal (read : Text)
  /-- A name, its characters so far in reverse. -/
  | word (read : Text)

/-- Cut a line into pieces; the pieces found so far are in `done`, the last one first. -/
def pieces (state : Open) (done : List Piece) : Text → Except NotationFault (List Piece)
  | [] =>
    match state with
    | .nothing => .ok done.reverse
    | .literal _ => .error .unterminatedLiteral
    | .word read => .ok (.word read.reverse :: done).reverse
  | c :: rest =>
    let fresh (done : List Piece) : Except NotationFault (List Piece) :=
      if Text.isBlank c then pieces .nothing done rest
      else if isSign c then pieces .nothing (.sign c :: done) rest
      else if c = '\'' then pieces (.literal [c]) done rest
      else if isWordStart c then pieces (.word [c]) done rest
      else .error (.unexpectedCharacter c)
    match state with
    | .nothing => fresh done
    | .literal read =>
      if c = '\'' then pieces .nothing (.literal (c :: read).reverse :: done) rest
      else pieces (.literal (c :: read)) done rest
    | .word read =>
      if isWordContinue c then pieces (.word (c :: read)) done rest
      else fresh (.word read.reverse :: done)

/-- The pieces of one rule and the line it starts on. -/
structure RuleText where
  line : Nat
  pieces : List Piece
  deriving DecidableEq, Repr

/-- Add the pieces of a continuation line to the last rule. -/
def extendLast (more : List Piece) : List RuleText → Option (List RuleText)
  | [] => none
  | [last] => some [{ last with pieces := last.pieces ++ more }]
  | rule :: rest => (extendLast more rest).map (rule :: ·)

/-- Gather the lines, the first of them numbered `line`, behind the rules found so far. -/
def gather (line : Nat) (rules : List RuleText) : List Text → Except GrammarError (List RuleText)
  | [] => .ok rules
  | raw :: rest =>
    let text := stripComment false raw
    if text.all Text.isBlank then gather (line + 1) rules rest
    else
      match pieces .nothing [] text with
      | .error fault => .error (.malformed line fault)
      | .ok found =>
        if text.head?.any Text.isBlank then
          match extendLast found rules with
          | some rules => gather (line + 1) rules rest
          | none => .error (.malformed line .strayContinuation)
        else gather (line + 1) (rules ++ [⟨line, found⟩]) rest

/-- An item can start with this piece. -/
def startsItem : List Piece → Bool
  | .sign c :: _ => c == '(' || c == '['
  | .word _ :: _ | .literal _ :: _ => true
  | [] => false

/-- The sign `c` stands in front; what is behind it. -/
def expectSign (c : Char) : List Piece → Except NotationFault (List Piece)
  | .sign d :: rest => if d = c then .ok rest else .error (.expectedSign c (some (.sign d)))
  | ps => .error (.expectedSign c ps.head?)

/-- Put `+` or `*` on an atom if one follows it. -/
def suffixed (atom : Rhs) : List Piece → Rhs × List Piece
  | .sign '+' :: rest => (.plus atom, rest)
  | .sign '*' :: rest => (.star atom, rest)
  | rest => (atom, rest)

mutual

/-- Read a right-hand side. Each call goes down one level, and only four levels lie between two
pieces, so `4 * (pieces + 1)` levels are enough. -/
def readRhs : Nat → List Piece → Except NotationFault (Rhs × List Piece)
  | 0, ps => .error (.expectedItem ps.head?)
  | n + 1, ps => do
    let (first, ps) ← readAlt n ps
    match ps with
    | .sign '|' :: ps => do
      let (second, ps) ← readRhs n ps
      pure (.alt first second, ps)
    | ps => pure (first, ps)

/-- Read items as long as they come. -/
def readAlt : Nat → List Piece → Except NotationFault (Rhs × List Piece)
  | 0, ps => .error (.expectedItem ps.head?)
  | n + 1, ps => do
    let (first, ps) ← readItem n ps
    if startsItem ps then do
      let (second, ps) ← readAlt n ps
      pure (.seq first second, ps)
    else pure (first, ps)

/-- Read an optional part, or an atom and its suffix. -/
def readItem : Nat → List Piece → Except NotationFault (Rhs × List Piece)
  | 0, ps => .error (.expectedItem ps.head?)
  | n + 1, .sign '[' :: ps => do
    let (body, ps) ← readRhs n ps
    let ps ← expectSign ']' ps
    pure (.optional body, ps)
  | n + 1, ps => do
    let (atom, ps) ← readAtom n ps
    pure (suffixed atom ps)

/-- Read a group or a label. -/
def readAtom : Nat → List Piece → Except NotationFault (Rhs × List Piece)
  | 0, ps => .error (.expectedItem ps.head?)
  | n + 1, .sign '(' :: ps => do
    let (body, ps) ← readRhs n ps
    let ps ← expectSign ')' ps
    pure (body, ps)
  | _ + 1, .word text :: ps => .ok (.label text, ps)
  | _ + 1, .literal text :: ps => .ok (.label text, ps)
  | _ + 1, ps => .error (.expectedItem ps.head?)

end

/-- Read a whole rule. -/
def readRule : List Piece → Except NotationFault Rule
  | .word name :: ps => do
    let ps ← expectSign ':' ps
    let (rhs, ps) ← readRhs (4 * (ps.length + 1)) ps
    match ps with
    | [] => pure ⟨name, rhs⟩
    | extra :: _ => throw (.trailingPiece extra name)
  | ps => .error (.expectedRuleName ps.head?)

/-- Read the rules one after the other; a name already taken is refused. -/
def readRules (rules : List Rule) : List RuleText → Except GrammarError (List Rule)
  | [] => .ok rules
  | text :: rest =>
    match readRule text.pieces with
    | .error fault => .error (.malformed text.line fault)
    | .ok rule =>
      if rules.any (·.name == rule.name) then .error (.duplicateRule rule.name)
      else readRules (rules ++ [rule]) rest

/-- The rules that a description holds, given by its lines. -/
def rules (lines : List Text) : Except GrammarError (List Rule) := do
  readRules [] (← gather 1 [] lines)

end Description

end Caret

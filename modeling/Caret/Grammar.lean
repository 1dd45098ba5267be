import Caret.Grammar.First
import Caret.Token
import Caret.Vocabulary.Keyword
/-!
# Parse tables

A grammar is a table of labels and, for each rule, a deterministic automaton over label numbers with
the terminals that the rule can start with. Label 0 is the empty label: an arc that carries it says
that the rule may end in its state, and leads back to that state. The first rule is the start.

Results:
* `Grammar.ofLines`: the tables of a description, or why there are none.
* `Grammar.Derives`: the words of label numbers that a rule stands for.
-/
namespace Caret

/-- What an arc is labelled with. -/
inductive Label
  /-- The rule may end here. -/
  | empty
  /-- A reserved word, recognised by the spelling of a name. -/
  | keyword (k : Keyword)
  | token (kind : TokenKind)
  /-- A rule, by its number. -/
  | rule (index : Nat)
  deriving DecidableEq, Repr

/-- An arc of a rule's automaton. -/
structure Arc where
  /-- Number of its label. -/
  label : Nat
  target : Nat
  deriving DecidableEq, Repr

/-- The automaton of one rule. -/
structure RuleTable where
  /-- Number of the rule. -/
  index : Nat
  name : String
  states : Array (List Arc)
  /-- Numbers of the terminals that the rule can start with, in ascending order. -/
  first : List Nat
  deriving DecidableEq, Repr

namespace RuleTable

/-- The arcs out of a state; a number that is no state has none. -/
def arcs (r : RuleTable) (state : Nat) : List Arc := (r.states[state]?).getD []

/-- The rule may end in this state. -/
def accepts (r : RuleTable) (state : Nat) : Bool := (r.arcs state).any (·.label == 0)

/-- The rule can do nothing but end in this state. -/
def acceptsOnly (r : RuleTable) (state : Nat) : Bool := r.arcs state == [⟨0, state⟩]

end RuleTable

/-- Parse tables. -/
structure Grammar where
  labels : Array Label
  rules : Array RuleTable
  deriving DecidableEq, Repr

namespace Grammar

/-- The characters of a literal without the quotes around it. -/
def unquote (literal : Text) : Text :=
  ((literal.dropWhile (· == '\'')).reverse.dropWhile (· == '\'')).reverse

/-- What a label of `rule` means. A word is a rule or else a token type; a literal is a keyword if
it starts with a letter and an operator if not. -/
def meaning (rules : List CompiledRule) (rule label : Text) : Except GrammarError Label :=
  if label.head?.any Description.isWordStart then
    match rules.findIdx? (·.name == label) with
    | some index => .ok (.rule index)
    | none =>
      match TokenKind.ofTerminal? (String.ofList label) with
      | some kind => .ok (.token kind)
      | none => .error (.unknownToken rule label)
  else
    let spelling := unquote label
    if spelling.head?.any Text.isAlphabetic then
      match Keyword.ofText? spelling with
      | some k => .ok (.keyword k)
      | none => .error (.unknownKeyword rule label)
    else
      match Operator.ofText? spelling with
      | some o => .ok (.token (.op o))
      | none => .error (.unknownOperator rule label)

/-- The number of a label; a new label gets the next one. -/
def intern (labels : List Label) (label : Label) : Nat × List Label :=
  match labels.idxOf? label with
  | some index => (index, labels)
  | none => (labels.length, labels ++ [label])

/-- Number what a label of `rule` means. -/
def number (rules : List CompiledRule) (rule : Text) (labels : List Label) (label : Text) :
    Except GrammarError (Nat × List Label) := do
  pure (intern labels (← meaning rules rule label))

/-- Number the labels of a state's arcs. -/
def numberArcs (rules : List CompiledRule) (rule : Text) (labels : List Label) :
    List (Text × Nat) → Except GrammarError (List Arc × List Label)
  | [] => .ok ([], labels)
  | (label, target) :: rest => do
    let (index, labels) ← number rules rule labels label
    let (arcs, labels) ← numberArcs rules rule labels rest
    pure (⟨index, target⟩ :: arcs, labels)

/-- Number the labels of the states from the `index`-th on. An accepting state gets an empty arc to
itself behind its other arcs. -/
def numberStates (rules : List CompiledRule) (rule : Text) (index : Nat) (labels : List Label) :
    List Dfa.State → Except GrammarError (List (List Arc) × List Label)
  | [] => .ok ([], labels)
  | state :: rest => do
    let (arcs, labels) ← numberArcs rules rule labels state.arcs
    let arcs := if state.accepting then arcs ++ [⟨0, index⟩] else arcs
    let (states, labels) ← numberStates rules rule (index + 1) labels rest
    pure (arcs :: states, labels)

/-- Number the terminals that a rule can start with. -/
def numberFirst (rules : List CompiledRule) (rule : Text) (labels : List Label)
    (found : List Nat) : List Text → Except GrammarError (List Nat × List Label)
  | [] => .ok (found, labels)
  | label :: rest => do
    let (index, labels) ← number rules rule labels label
    numberFirst rules rule labels (Ascending.insert index found) rest

/-- The tables of the last rules, the first of them having the number `index`. -/
def numberRules (rules : List CompiledRule) (first : First.Table) (index : Nat)
    (labels : List Label) : List CompiledRule → Except GrammarError (List RuleTable × List Label)
  | [] => .ok ([], labels)
  | rule :: rest => do
    let (states, labels) ← numberStates rules rule.name 0 labels rule.states
    let (terminals, labels) ←
      numberFirst rules rule.name labels [] (First.terminals first rule.name)
    let (tables, labels) ← numberRules rules first (index + 1) labels rest
    pure (⟨index, String.ofList rule.name, states.toArray, terminals⟩ :: tables, labels)

/-- The tables of compiled rules. -/
def ofCompiled (rules : List CompiledRule) : Except GrammarError Grammar := do
  if rules.isEmpty then throw .empty
  let first ← First.table rules
  let (tables, labels) ← numberRules rules first 0 [.empty] rules
  pure ⟨labels.toArray, tables.toArray⟩

/-- The tables of a description, given by its lines. -/
def ofLines (lines : List Text) : Except GrammarError Grammar := do
  ofCompiled ((← Description.rules lines).map .ofRule)

/-- The tables of a description. -/
def ofText (description : Text) : Except GrammarError Grammar := ofLines description.lines

variable (g : Grammar)

def label? (index : Nat) : Option Label := g.labels[index]?

def rule? (index : Nat) : Option RuleTable := g.rules[index]?

/-- The rule that a whole source is parsed by. -/
def start? : Option RuleTable := g.rule? 0

/-- The name of a rule; `?` if the grammar has no such rule. -/
def ruleName (index : Nat) : String := ((g.rule? index).map (·.name)).getD "?"

/-- The number of the rule of this name. -/
def ruleIndex? (name : String) : Option Nat := g.rules.findIdx? (·.name == name)

/-- The label of a reserved word, if the grammar uses it. -/
def keywordLabel? (k : Keyword) : Option Nat := g.labels.idxOf? (.keyword k)

/-- The label of a token type, if the grammar uses it. -/
def tokenLabel? (kind : TokenKind) : Option Nat := g.labels.idxOf? (.token kind)

/-- The reserved words that the grammar uses, in registry order. -/
def keywords : List Keyword := Keyword.all.filter fun k => (g.keywordLabel? k).isSome

/-- How a label is shown. -/
def describe (index : Nat) : String :=
  match g.label? index with
  | some .empty => "EMPTY"
  | some (.keyword k) => s!"'{k.spelling}'"
  | some (.token kind) => kind.render
  | some (.rule i) => g.ruleName i
  | none => s!"<label {index}>"

/-- One line of a dump: a state and its arcs. -/
def dumpState (index : Nat) (arcs : List Arc) : String :=
  let shown := arcs.map fun a => s!"{g.describe a.label} -> {a.target}"
  s!"  {index}: " ++ ", ".intercalate shown ++ "\n"

/-- The tables as text, a block for each rule and a line for each state. -/
def dump : String :=
  String.join (g.rules.toList.map fun r =>
    s!"{r.name}:\n" ++ String.join (r.states.toList.mapIdx g.dumpState))

/-- The label is a reserved word or a token type. -/
def isTerminal (index : Nat) : Bool :=
  match g.label? index with
  | some (.keyword _) | some (.token _) => true
  | _ => false

/-- The word of label numbers leads from a state of a rule to one where the rule may end; a rule
label stands for the words of that rule. -/
inductive Derives (g : Grammar) : RuleTable → Nat → List Nat → Prop
  | finish {r : RuleTable} {s : Nat} (h : r.accepts s = true) : Derives g r s []
  | terminal {r : RuleTable} {s : Nat} {a : Arc} {w : List Nat} (h : a ∈ r.arcs s)
      (h' : g.isTerminal a.label = true) (h'' : Derives g r a.target w) :
      Derives g r s (a.label :: w)
  | nested {r sub : RuleTable} {s i : Nat} {a : Arc} {v w : List Nat} (h : a ∈ r.arcs s)
      (h' : g.label? a.label = some (.rule i)) (h'' : g.rule? i = some sub)
      (inner : Derives g sub 0 v) (outer : Derives g r a.target w) : Derives g r s (v ++ w)

/-- The words that the start rule stands for. -/
def Language (w : List Nat) : Prop := ∃ r, g.start? = some r ∧ g.Derives r 0 w

end Grammar

end Caret

import Caret.Grammar.Automaton
/-!
# What a rule can start with

The terminals that a rule can start with are gathered along the labels of its first state: a label
that names a rule stands for what that rule can start with, every other label for itself. A rule
that can start with itself is refused, and so is a rule two of whose labels share a terminal.

Results:
* `Starts`: one rule can start with another.
-/
namespace Caret.First

/-- The labels of the first state of `rule` name `sub`, a rule of the description. -/
def Starts (rules : List CompiledRule) (rule sub : CompiledRule) : Prop :=
  sub.name ∈ rule.initialLabels ∧ rules.find? (·.name == sub.name) = some sub

/-- The terminals found for each rule, the latest entry first; a rule without terminals is being
worked on. -/
abbrev Table := List (Text × Option (List Text))

/-- The first terminal of `set` that an earlier label has too, and that label. -/
def shared? (owners : List (Text × Text)) : List Text → Option (Text × Text)
  | [] => none
  | terminal :: rest =>
    match owners.lookup terminal with
    | some owner => some (terminal, owner)
    | none => shared? owners rest

/-- Refuse two labels of a rule that share a terminal; `owners` holds the terminals of the labels
already passed. -/
def checkDisjoint (rule : Text) (owners : List (Text × Text)) :
    List (Text × List Text) → Except GrammarError Unit
  | [] => .ok ()
  | (label, set) :: rest =>
    match shared? owners set with
    | some (terminal, owner) => .error (.ambiguous rule terminal owner label)
    | none => checkDisjoint rule (set.map (fun terminal => (terminal, label)) ++ owners) rest

/-- Find the terminals of a rule, and on the way those of the rules it can start with. The rules
being worked on are all different, so no more levels than rules are needed. -/
def find (rules : List CompiledRule) : Nat → CompiledRule → Table → Except GrammarError Table
  | 0, rule, _ => .error (.leftRecursion rule.name)
  | n + 1, rule, table => do
    let (table, sources) ← rule.initialLabels.foldlM
      (fun (table, sources) label =>
        match rules.find? (·.name == label) with
        | none => .ok (table, sources ++ [(label, [label])])
        | some sub =>
          match table.lookup label with
          | some (some set) => .ok (table, sources ++ [(label, set)])
          | some none => .error (.leftRecursion rule.name)
          | none => do
            let table ← find rules n sub table
            .ok (table, sources ++ [(label, ((table.lookup label).getD none).getD [])]))
      ((rule.name, none) :: table, [])
    checkDisjoint rule.name [] sources
    let all := Ascending.ofList (sources.flatMap (·.2))
    .ok ((rule.name, some all) :: table)

/-- The terminals of every rule, in ascending order. -/
def table (rules : List CompiledRule) : Except GrammarError Table :=
  rules.foldlM
    (fun table rule =>
      if (table.lookup rule.name).isSome then .ok table else find rules rules.length rule table)
    []

/-- What a rule can start with. -/
def terminals (table : Table) (rule : Text) : List Text :=
  ((table.lookup rule).getD none).getD []

end Caret.First

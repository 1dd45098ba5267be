import Caret.Ascending
import Caret.Grammar.Description
/-!
# From rules to automata

A right-hand side becomes an automaton with silent steps, glued together from fragments that have
one entry and one exit; the automaton becomes deterministic by following sets of its states, and
states that behave alike at first sight are merged.

Results:
* `Nfa.Leads`, `Nfa.Accepts`: the words that lead from the start of an automaton to its finish.
* `Dfa.Leads`, `Dfa.Accepts`: the words that a list of deterministic states accepts from its first.
-/
namespace Caret

namespace Nfa

/-- A step from one state to another; without a label it is silent. -/
structure Arc where
  source : Nat
  label : Option Text
  target : Nat
  deriving DecidableEq, Repr

end Nfa

/-- An automaton with silent steps; its states are the numbers below `size`. -/
structure Nfa where
  size : Nat
  arcs : List Nfa.Arc
  start : Nat
  finish : Nat
  deriving DecidableEq, Repr

namespace Nfa

/-- The word leads from one state to the other. -/
inductive Leads (nfa : Nfa) : Nat → List Text → Nat → Prop
  | refl (s : Nat) : Leads nfa s [] s
  | silent {s t u : Nat} {w : List Text} (h : ⟨s, none, t⟩ ∈ nfa.arcs) (h' : Leads nfa t w u) :
      Leads nfa s w u
  | step {s t u : Nat} {label : Text} {w : List Text} (h : ⟨s, some label, t⟩ ∈ nfa.arcs)
      (h' : Leads nfa t w u) : Leads nfa s (label :: w) u

/-- The word leads from the start to the finish. -/
def Accepts (nfa : Nfa) (w : List Text) : Prop := Leads nfa nfa.start w nfa.finish

/-- Every arc joins states of the automaton, and so do start and finish. -/
def WellFormed (nfa : Nfa) : Prop :=
  nfa.start < nfa.size ∧ nfa.finish < nfa.size ∧
    ∀ a ∈ nfa.arcs, a.source < nfa.size ∧ a.target < nfa.size

/-- Part of an automaton: states up to `next`, one way in and one way out. -/
structure Fragment where
  arcs : List Arc
  entry : Nat
  exit : Nat
  next : Nat

/-- The fragment of a right-hand side, on states from `next` on. Silent arcs are added to the
entries and exits that are there: a star leaves by its entry, and only a choice has states of its
own. -/
def fragment (next : Nat) : Rhs → Fragment
  | .label text => ⟨[⟨next, some text, next + 1⟩], next, next + 1, next + 2⟩
  | .optional body =>
    let f := fragment next body
    { f with arcs := ⟨f.entry, none, f.exit⟩ :: f.arcs }
  | .plus body =>
    let f := fragment next body
    { f with arcs := ⟨f.exit, none, f.entry⟩ :: f.arcs }
  | .star body =>
    let f := fragment next body
    { f with arcs := ⟨f.exit, none, f.entry⟩ :: f.arcs, exit := f.entry }
  | .seq first second =>
    let f := fragment next first
    let g := fragment f.next second
    ⟨⟨f.exit, none, g.entry⟩ :: (f.arcs ++ g.arcs), f.entry, g.exit, g.next⟩
  | .alt first second =>
    let f := fragment next first
    let g := fragment f.next second
    let entry := g.next
    let exit := g.next + 1
    ⟨⟨entry, none, f.entry⟩ :: ⟨entry, none, g.entry⟩ :: ⟨f.exit, none, exit⟩ ::
      ⟨g.exit, none, exit⟩ :: (f.arcs ++ g.arcs), entry, exit, g.next + 2⟩

/-- The automaton of a right-hand side. -/
def ofRhs (rhs : Rhs) : Nfa :=
  let f := fragment 0 rhs
  ⟨f.next, f.arcs, f.entry, f.exit⟩

/-- The states that silent steps lead to from those of the frontier, added to those seen. A state is
opened once and an arc followed once, so there are no more rounds than frontier states and arcs. -/
def reach (nfa : Nfa) : Nat → (frontier seen : List Nat) → List Nat
  | 0, _, seen => seen
  | _ + 1, [], seen => seen
  | n + 1, s :: frontier, seen =>
    if seen.contains s then reach nfa n frontier seen
    else
      let silent := nfa.arcs.filter fun a => a.source == s && a.label.isNone
      reach nfa n (silent.map (·.target) ++ frontier) (s :: seen)

/-- A set of states, in ascending order, with all that silent steps add to it. -/
def closure (nfa : Nfa) (states : List Nat) : List Nat :=
  let reached := nfa.reach (states.length + nfa.arcs.length + 1) states []
  (List.range nfa.size).filter reached.contains

/-- The steps with a label out of a set of states. -/
def leaving (nfa : Nfa) (states : List Nat) : List (Text × Nat) :=
  nfa.arcs.filterMap fun a =>
    if states.contains a.source then a.label.map fun label => (label, a.target) else none

/-- Where each label leads from a set of states, labels in ascending order. -/
def moves (nfa : Nfa) (states : List Nat) : List (Text × List Nat) :=
  let steps := nfa.leaving states
  (Ascending.ofList (steps.map (·.1))).map fun label =>
    (label, nfa.closure ((steps.filter (·.1 == label)).map (·.2)))

end Nfa

namespace Dfa

/-- A deterministic state: its arcs in ascending order of their labels, and whether a word may end
here. -/
structure State where
  arcs : List (Text × Nat)
  accepting : Bool
  deriving DecidableEq, Repr

/-- The word leads from one state to the other. -/
inductive Leads (states : List State) : Nat → List Text → Nat → Prop
  | refl (s : Nat) : Leads states s [] s
  | step {s t u : Nat} {state : State} {label : Text} {w : List Text}
      (h : states[s]? = some state) (h' : (label, t) ∈ state.arcs) (h'' : Leads states t w u) :
      Leads states s (label :: w) u

/-- The word leads from state 0 to an accepting state. -/
def Accepts (states : List State) (w : List Text) : Prop :=
  ∃ s state, Leads states 0 w s ∧ states[s]? = some state ∧ state.accepting

/-- The number of a set among those found; a new set is added at the end. -/
def number (sets : List (List Nat)) (set : List Nat) : Nat × List (List Nat) :=
  match sets.idxOf? set with
  | some i => (i, sets)
  | none => (sets.length, sets ++ [set])

/-- Number the sets that the labels lead to. -/
def numberAll (sets : List (List Nat)) :
    List (Text × List Nat) → List (Text × Nat) × List (List Nat)
  | [] => ([], sets)
  | (label, set) :: rest =>
    let (target, sets) := number sets set
    let (arcs, sets) := numberAll sets rest
    ((label, target) :: arcs, sets)

/-- Follow the sets found, in the order they were found, from the `index`-th on. An automaton has
`2 ^ size` sets of states, so there are no more rounds than that. -/
def explore (nfa : Nfa) : Nat → (sets : List (List Nat)) → (index : Nat) → List State
  | 0, _, _ => []
  | n + 1, sets, index =>
    match sets[index]? with
    | none => []
    | some set =>
      let (arcs, sets) := numberAll sets (nfa.moves set)
      ⟨arcs, set.contains nfa.finish⟩ :: explore nfa n sets (index + 1)

/-- The deterministic states of an automaton, the first being the start. -/
def ofNfa (nfa : Nfa) : List State :=
  explore nfa (Nat.pow 2 nfa.size) [nfa.closure [nfa.start]] 0

/-- The first two places that hold the same state. -/
def firstTwins? : List State → Option (Nat × Nat)
  | [] => none
  | state :: rest =>
    match rest.idxOf? state with
    | some j => some (0, j + 1)
    | none => (firstTwins? rest).map fun (i, j) => (i + 1, j + 1)

/-- Take out the state at `drop` and send what led there to `keep`. -/
def merge (keep drop : Nat) (states : List State) : List State :=
  let redirect (t : Nat) : Nat := if t = drop then keep else if drop < t then t - 1 else t
  (states.eraseIdx drop).map fun s => { s with arcs := s.arcs.map fun (l, t) => (l, redirect t) }

/-- Merge twins until there are none; each round takes out a state. -/
def mergeTwins : Nat → List State → List State
  | 0, states => states
  | n + 1, states =>
    match firstTwins? states with
    | none => states
    | some (keep, drop) => mergeTwins n (merge keep drop states)

/-- No two states of the result are the same. -/
def simplify (states : List State) : List State := mergeTwins states.length states

end Dfa

/-- A rule and the deterministic automaton of its right-hand side. -/
structure CompiledRule where
  name : Text
  states : List Dfa.State
  deriving DecidableEq, Repr

namespace CompiledRule

def ofRule (rule : Rule) : CompiledRule :=
  ⟨rule.name, Dfa.simplify (Dfa.ofNfa (Nfa.ofRhs rule.rhs))⟩

/-- The labels that the rule can start with. -/
def initialLabels (rule : CompiledRule) : List Text :=
  match rule.states with
  | [] => []
  | state :: _ => state.arcs.map (·.1)

end CompiledRule

end Caret

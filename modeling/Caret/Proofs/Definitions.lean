import Caret.Proofs.ImportTargets
import Caret.Scope
/-!
# Binding occurrences

Definitions are collected along the leaves of the tree. Leaves stand in order, also where the source
is broken, and a name has a character, so the definitions are collected in strictly ascending order
and sorting leaves them as they are. No two names touch, so on a binding occurrence, its ends
included, the name looked up is this one, and the definitions found are those of its spelling.

Results:
* `Completion.sortBy_of_sorted`: sorting leaves a sorted list as it is.
* `definition?_leaf`: a definition has the name and the place of a leaf.
* `definitions_eq`, `definitions_ascending`: the definitions in the order of the leaves.
* `results_on_definition`: what a position on a definition refers to.
* `definition_finds_itself`: the definitions found there, for every source of the Python grammar.
-/
namespace Caret

namespace Completion

variable {α : Type} {cmp : α → α → Ordering} {x : α} {xs : List α}

theorem insertBy_of_first (first : ∀ y ∈ xs.head?, cmp x y ≠ .gt) :
    insertBy cmp x xs = x :: xs := by
  cases xs with
  | nil => rfl
  | cons y rest => rw [insertBy, if_neg (first y rfl)]

/-- Sorting leaves a sorted list as it is. -/
theorem sortBy_of_sorted (sorted : xs.Pairwise fun a b => cmp a b ≠ .gt) : sortBy cmp xs = xs := by
  induction xs with
  | nil => rfl
  | cons x rest ih =>
    obtain ⟨first, sorted⟩ := List.pairwise_cons.1 sorted
    show insertBy cmp x (sortBy cmp rest) = x :: rest
    rw [ih sorted, insertBy_of_first fun y hy => first y (List.mem_of_mem_head? hy)]

end Completion

/-- The places of the leaves stand in order. -/
theorem Module.focuses_ordered {m : Module} (ordered : m.root.leaves.Pairwise Leaf.Before) :
    (Focus.root m.root).leaves.Pairwise fun e f => e.tree.stop ≤ f.tree.start := by
  have trees : (Focus.root m.root).leaves.map (·.tree) = m.root.leaves.map .leaf :=
    Focus.leavesIn_trees [] m.root
  refine List.pairwise_map (R := fun s t : Tree => s.stop ≤ t.start).1 ?_
  rw [trees, List.pairwise_map]
  refine ordered.imp fun {l k} before => ?_
  rw [Tree.stop_leaf, Tree.start_leaf]
  exact before

namespace Scope

open Completion

variable {modulePath : Option String} {m : Module} {f : Focus} {d e : Definition} {pos : Position}
  {source : Text} {rules : List String}

/-- A definition is at a name, and has its value and its place. -/
theorem definition?_leaf (h : definition? modulePath f = some d) : ∃ l, f.tree = .leaf l ∧
    l.kind = .name ∧ d.name = l.value ∧ d.start = l.start ∧ d.stop = l.stop ∧
      d.modulePath = modulePath := by
  obtain ⟨kind, binds, h⟩ := Option.bind_eq_some_iff.1 h
  obtain ⟨l, leaf, h⟩ := Option.bind_eq_some_iff.1 h
  cases h
  cases tree : f.tree with
  | branch rule children => rw [tree] at leaf; cases leaf
  | leaf l' =>
    rw [tree] at leaf
    cases leaf
    refine ⟨l, rfl, ?_, rfl, rfl, rfl, rfl⟩
    unfold bindingKind? at binds
    rw [tree] at binds
    dsimp only at binds
    split at binds
    · next name => exact name
    · cases binds

theorem site_compare (same : d.modulePath = e.modulePath) (le : d.start ≤ e.start) :
    (site d).compare (site e) ≠ .gt := by
  have path : compare (d.modulePath.getD "") (e.modulePath.getD "") = .eq := by
    rw [same]
    exact Std.ReflCmp.compare_self
  unfold Site.compare site
  rw [path]
  simp only [Option.getD_some, Ordering.eq_then]
  rcases le with lt | ⟨line, column⟩
  · rw [Nat.compare_eq_lt.2 lt]
    simp
  · rw [line, Nat.compare_eq_eq.2 rfl]
    simpa [Nat.compare_eq_gt] using column

/-- The definitions are those at the leaves, one after the other. -/
theorem definitions_eq (ordered : m.root.leaves.Pairwise Leaf.Before) :
    definitions modulePath m =
      (Focus.root m.root).leaves.filterMap (definition? modulePath) := by
  unfold definitions sortDefinitions
  apply sortBy_of_sorted
  rw [List.pairwise_filterMap]
  refine (Module.focuses_ordered ordered).imp fun {e f} before d hd d' hd' => ?_
  obtain ⟨l, leaf, -, -, start, stop, path⟩ := definition?_leaf hd
  obtain ⟨l', leaf', -, -, start', -, path'⟩ := definition?_leaf hd'
  rw [leaf, leaf', Tree.stop_leaf, Tree.start_leaf] at before
  apply site_compare (path.trans path'.symm)
  rw [start, start']
  exact Position.le_trans l.start_le_stop before

section Regular

variable (regular : m.root.Regular Grammar.pythonTables (tokenize source) rules)
  (ordered : m.root.leaves.Pairwise Leaf.Before)
include regular ordered

/-- Of two definitions the first starts before the second. -/
theorem definitions_ascending :
    (definitions modulePath m).Pairwise fun d e => d.start < e.start := by
  rw [definitions_eq ordered, List.pairwise_filterMap]
  refine (Module.focuses_ordered ordered).imp_of_mem fun {e f} he _ before d hd d' hd' => ?_
  obtain ⟨l, leaf, name, -, start, -⟩ := definition?_leaf hd
  obtain ⟨l', leaf', -, -, start', -⟩ := definition?_leaf hd'
  have member : Tree.leaf l ∈ m.root.leaves.map Tree.leaf := by
    rw [← Focus.leavesIn_trees [] m.root, ← leaf]
    exact List.mem_map_of_mem he
  have own : l ∈ m.root.leaves := by
    obtain ⟨k, hk, same⟩ := List.mem_map.1 member
    cases same
    exact hk
  rw [leaf, leaf', Tree.stop_leaf, Tree.start_leaf] at before
  rw [start, start']
  exact Position.lt_of_lt_of_le (regular.name own name).start_lt_stop before

/-- A position on a definition refers to all definitions of its spelling. -/
theorem results_on_definition (hd : d ∈ definitions modulePath m) (after : d.start ≤ pos)
    (upTo : pos ≤ d.stop) :
    contextResults (evaluator modulePath) m pos = definitionsOf modulePath m d.name := by
  rw [definitions_eq ordered] at hd
  obtain ⟨f, member, at_⟩ := List.mem_filterMap.1 hd
  obtain ⟨l, leaf, name, value, start, stop, -⟩ := definition?_leaf at_
  obtain ⟨t, path⟩ := f
  obtain rfl : t = .leaf l := leaf
  rw [start] at after
  rw [stop] at upTo
  unfold contextResults
  rw [Module.nameAt?_leaf regular ordered member name after upTo, value]
  rfl

end Regular

/-- Take any source, with the Python grammar, a definition in it, and a position on the definition,
both ends included. This definition is among those that the position refers to. They all have its
spelling, and each starts before the next one. -/
theorem definition_finds_itself : ∃ g, Grammar.python = .ok g ∧ ∀ source, ∃ m,
    Module.parse g source = .ok m ∧ ∀ modulePath, ∀ d ∈ definitions modulePath m, ∀ pos,
      d.start ≤ pos → pos ≤ d.stop →
        d ∈ contextResults (evaluator modulePath) m pos ∧
        (∀ e ∈ contextResults (evaluator modulePath) m pos, e.name = d.name) ∧
        (contextResults (evaluator modulePath) m pos).Pairwise fun e e' => e.start < e'.start := by
  refine ⟨_, Grammar.python_eq, fun source => ?_⟩
  obtain ⟨m, parsed, -⟩ := Module.parse_of_layered Grammar.python_consistent
    Grammar.python_layered source
  have regular := (Module.parse_regular Grammar.python_consistent Grammar.python_layered
    Grammar.python_sealed Grammar.python_secluded parsed).1
  have ordered := Module.leaves_ordered Grammar.python_consistent Grammar.python_layered parsed
  refine ⟨m, parsed, fun modulePath d hd pos after upTo => ?_⟩
  rw [results_on_definition regular ordered hd after upTo]
  refine ⟨?_, ?_, (definitions_ascending regular ordered).filter _⟩
  · unfold definitionsOf
    simpa using hd
  · intro e he
    unfold definitionsOf at he
    simpa using (List.mem_filter.1 he).2

/-- At the end of a loop target, in a source with a bracket too many. -/
theorem definition_finds_itself_loop : ∃ g m d, Grammar.python = .ok g ∧
    Module.parse g "for x in y:\n  x = x)\n".toList = .ok m ∧ d ∈ definitions none m ∧
    d.start ≤ ⟨1, 5⟩ ∧ ⟨1, 5⟩ ≤ d.stop ∧ d ∈ contextResults (evaluator none) m ⟨1, 5⟩ ∧
    (∀ e ∈ contextResults (evaluator none) m ⟨1, 5⟩, e.name = d.name) ∧
    (contextResults (evaluator none) m ⟨1, 5⟩).Pairwise fun e e' => e.start < e'.start := by
  obtain ⟨g, python, all⟩ := definition_finds_itself
  obtain ⟨m, parsed, finds⟩ := all "for x in y:\n  x = x)\n".toList
  obtain rfl := Grammar.python_tables python
  have computed : (Module.parse Grammar.pythonTables
      "for x in y:\n  x = x)\n".toList).toOption.any (fun m =>
        (definitions none m).contains ⟨['x'], .loopTarget, ⟨1, 4⟩, ⟨1, 5⟩, none⟩) = true := by
    decide +kernel
  rw [parsed, Except.toOption, Option.any_some] at computed
  have hd : (⟨['x'], .loopTarget, ⟨1, 4⟩, ⟨1, 5⟩, none⟩ : Definition) ∈ definitions none m := by
    simpa using computed
  exact ⟨_, m, _, python, parsed, hd, by decide, by decide,
    finds none _ hd ⟨1, 5⟩ (by decide) (by decide)⟩

end Scope

end Caret

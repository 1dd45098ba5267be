import Mathlib.Data.List.Nodup
import Caret.Proofs.Definitions
/-!
# Completion candidates

Candidates are what is offered at a position, as far as it begins with what has been typed. First
come reserved words, each once and in registry order, then names bound before the identifier being
typed, each once and in ascending order. No candidate is in both: a name of the tree is a token that
is no reserved word of the grammar, and the Python grammar has them all.

Results:
* `complete_eq`: a report, and its candidates as those of `choices` that are accepted.
* `Tree.Regular.not_reserved`: a name in the tree of a source is no reserved word.
* `candidates_split`: reserved words and then names, none of them twice.
-/
namespace Caret

namespace Completion

variable {g : Grammar} {m : Module} {source : Text} {pos : Position} {δ : Type}
  {evaluator : Evaluator δ} {c : Config} {found : Option Expected}

/-- Where the identifier begins that is being typed at a position. -/
def nameStart (source : Text) (pos : Position) : Position :=
  ⟨pos.line, pos.column - (Parts.ofPath (pathUntil source pos)).name.length⟩

/-- What is offered at a position, whether or not it begins with what has been typed. -/
def choices (c : Config) (m : Module) (source : Text) (pos : Position) (evaluator : Evaluator δ) :
    Option Expected → List Text
  | none => []
  | some e =>
    if importAt m pos = .onImportKeyword then []
    else
      offered c e (Parts.ofPath (pathUntil source pos)).hasDot
        (evaluator.namesInScope m (nameStart source pos))

/-- A report where it is known what may come next. -/
theorem complete_eq (h : expectedAt g source m (nameStart source pos) = .ok found) :
    complete g m source pos evaluator c = .ok
      ⟨Parts.ofPath (pathUntil source pos),
        found.map fun e => if c.tokenKinds then e else { e with kinds := [] }, importAt m pos,
        (choices c m source pos evaluator found).filter
          (c.accepts · (Parts.ofPath (pathUntil source pos)).name)⟩ := by
  unfold nameStart at h
  unfold complete choices nameStart
  dsimp only
  rw [h]
  cases found with
  | none => rfl
  | some e =>
    by_cases keyword : importAt m pos = .onImportKeyword
    · simp [keyword, bind, Except.bind, pure, Except.pure]
    · simp [keyword, bind, Except.bind, pure, Except.pure]

/-- Words that may come next stand in registry order. -/
theorem expected_keywords {stack : List Frame} {e : Expected} (h : expected g stack = .ok e) :
    e.keywords.Sublist Keyword.all := by
  obtain ⟨gathered, -, h⟩ := Except.bind_ok.1 h
  cases h
  exact List.filter_sublist

theorem expectedAt_keywords {e : Expected} (h : expectedAt g source m pos = .ok (some e)) :
    e.keywords.Sublist Keyword.all := by
  unfold expectedAt at h
  split at h
  · next stack _ =>
    cases gathered : expected g stack with
    | error err =>
      rw [gathered] at h
      cases h
    | ok e' =>
      rw [gathered] at h
      cases h
      exact expected_keywords gathered
  · split at h
    · cases h
    · cases h

end Completion

/-! ## Names are no reserved words -/

theorem Keyword.spelling_injective {k k' : Keyword}
    (h : k.spelling.toList = k'.spelling.toList) : k = k' := by
  have found := ofText?_spelling k
  rw [h, ofText?_spelling k'] at found
  exact (Option.some.inj found).symm

theorem Grammar.python_keywords (k : Keyword) : (pythonTables.keywordLabel? k).isSome = true := by
  cases k <;> decide +kernel

/-- With a grammar that has all reserved words, a name in the tree of a source is none of them. -/
theorem Tree.Regular.not_reserved {g : Grammar} {T : List Token} {rules : List String} {t : Tree}
    {l : Leaf} (reserved : ∀ k, (g.keywordLabel? k).isSome = true) (h : t.Regular g T rules)
    (hl : l ∈ t.leaves) (name : l.kind = .name) : Keyword.ofText? l.value = none := by
  induction h with
  | leaf read =>
    rw [Tree.leaves_leaf, List.mem_singleton] at hl
    subst hl
    obtain ⟨u, -, class_, rfl⟩ := read
    cases word : Keyword.ofText? u.value with
    | none => exact word
    | some k =>
      -- then the token has the label of the word, and its leaf is one of a word
      obtain ⟨i, hi⟩ := Option.isSome_iff_exists.1 (reserved k)
      have label := Grammar.label?_of_idxOf? hi
      by_cases kind : u.kind = .name
      · have own : Parser.classify g u = some i := by
          unfold Parser.classify
          rw [if_pos kind, word, Option.bind_some, hi]
          rfl
        rw [own] at class_
        cases class_
        rw [Parser.leafOf, label, kind] at name
        cases name
      · rw [Parser.leafOf] at name
        cases other : u.kind <;> simp_all [LeafKind.ofToken]
  | error =>
    rw [Tree.leaves_leaf, List.mem_singleton] at hl
    subst hl
    cases name
  | branch _ _ ih =>
    rw [Tree.leaves_branch] at hl
    obtain ⟨child, hc, hl⟩ := List.mem_flatMap.1 hl
    exact ih child hc hl

namespace Scope

open Completion

variable {g : Grammar} {m : Module} {pos : Position} {T : List Token} {rules : List String}

theorem mem_definitions {modulePath : Option String} {d : Definition} :
    d ∈ definitions modulePath m ↔
      ∃ f ∈ (Focus.root m.root).leaves, definition? modulePath f = some d := by
  unfold definitions sortDefinitions
  rw [(perm_sortBy _ _).mem_iff, List.mem_filterMap]

/-- A name in scope is bound before the position, and is no reserved word. -/
theorem namesInScope_bound (reserved : ∀ k, (g.keywordLabel? k).isSome = true)
    (regular : m.root.Regular g T rules) (modulePath : Option String) {n : Text}
    (hn : n ∈ namesInScope m pos) :
    Keyword.ofText? n = none ∧ ∃ d ∈ definitions modulePath m, d.name = n ∧ d.start < pos := by
  unfold namesInScope at hn
  rw [Ascending.mem_ofList, List.mem_map] at hn
  obtain ⟨d, hd, rfl⟩ := hn
  obtain ⟨hd, before⟩ := List.mem_filter.1 hd
  obtain ⟨f, hf, at_⟩ := mem_definitions.1 hd
  obtain ⟨l, leaf, name, value, start, -⟩ := definition?_leaf at_
  have member : Tree.leaf l ∈ m.root.leaves.map Tree.leaf := by
    rw [← Focus.leavesIn_trees [] m.root, ← leaf]
    exact List.mem_map_of_mem hf
  have own : l ∈ m.root.leaves := by
    obtain ⟨k, hk, same⟩ := List.mem_map.1 member
    cases same
    exact hk
  constructor
  · rw [value]
    exact regular.not_reserved reserved own name
  · -- the path of the source makes no difference to what is bound where
    obtain ⟨kind, binds, -⟩ := Option.bind_eq_some_iff.1 at_
    refine ⟨definitionAt modulePath l kind, mem_definitions.2 ⟨f, hf, ?_⟩, value.symm, ?_⟩
    · unfold definition?
      rw [binds, leaf]
      rfl
    · rw [start, decide_eq_true_eq] at before
      exact before

end Scope

namespace Completion

variable {m : Module} {source : Text} {pos : Position}

/-- The candidates are these reserved words, in registry order, and behind them these names, in
ascending order. -/
structure Arranged (candidates : List Text) (words : List Keyword) (names : List Text) : Prop where
  split : candidates = words.map (·.spelling.toList) ++ names
  registry : words.Sublist Keyword.all
  ascending : names.Pairwise (· < ·)

theorem Arranged.nil : Arranged [] [] [] := ⟨rfl, List.nil_sublist _, .nil⟩

/-- If none of the names is a reserved word, no candidate comes twice. -/
theorem Arranged.nodup {candidates : List Text} {words : List Keyword} {names : List Text}
    (h : Arranged candidates words names) (plain : ∀ n ∈ names, Keyword.ofText? n = none) :
    candidates.Nodup := by
  rw [h.split]
  refine List.nodup_append.2 ⟨?_, ?_, ?_⟩
  · have each : Keyword.all.Nodup := by decide
    exact List.Nodup.map (fun _ _ same => Keyword.spelling_injective same) (h.registry.nodup each)
  · refine h.ascending.imp fun {n n'} lt same => ?_
    rw [same] at lt
    exact List.lt_irrefl n' lt
  · intro w hw n hn same
    obtain ⟨k, -, rfl⟩ := List.mem_map.1 hw
    have other := plain n hn
    rw [← same, Keyword.ofText?_spelling] at other
    cases other

/-- What is accepted of the choices are reserved words and names in scope. -/
theorem choices_arranged {δ : Type} {g : Grammar} {found : Option Expected}
    (evaluator : Evaluator δ) (c : Config) (accepted : Text → Bool)
    (h : expectedAt g source m (nameStart source pos) = .ok found) :
    ∃ words names, Arranged ((choices c m source pos evaluator found).filter accepted) words names ∧
      ∀ n ∈ names, n ∈ evaluator.namesInScope m (nameStart source pos) := by
  unfold choices
  cases found with
  | none => exact ⟨[], [], .nil, fun n hn => absurd hn List.not_mem_nil⟩
  | some e =>
    dsimp only
    split
    · exact ⟨[], [], .nil, fun n hn => absurd hn List.not_mem_nil⟩
    · have words : ∃ words : List Keyword,
          (if c.keywords then e.keywords.map (·.spelling.toList) else []).filter accepted =
            words.map (·.spelling.toList) ∧ words.Sublist Keyword.all := by
        split
        · refine ⟨e.keywords.filter (accepted ·.spelling.toList), ?_, ?_⟩
          · rw [List.filter_map]
            rfl
          · exact List.filter_sublist.trans (expectedAt_keywords h)
        · exact ⟨[], rfl, List.nil_sublist _⟩
      obtain ⟨words, spelled, registry⟩ := words
      unfold offered
      rw [List.filter_append, spelled]
      refine ⟨words, _, ⟨rfl, registry, ?_⟩, ?_⟩
      · split
        · exact (Ascending.pairwise_ofList _).filter _
        · exact .nil
      · intro n hn
        have member := List.mem_of_mem_filter hn
        split at member
        · exact Ascending.mem_ofList.1 member
        · cases member

/-- Take any source, with the Python grammar, and complete at any position of it. No candidate comes
twice. They are reserved words, in registry order, and behind them names that are no reserved words,
in ascending order; each name is that of a definition that starts before the identifier being
typed. -/
theorem candidates_split : ∃ g, Grammar.python = .ok g ∧ ∀ source, ∃ m,
    Module.parse g source = .ok m ∧ ∀ pos modulePath c, ∃ report,
      complete g m source pos (Scope.evaluator modulePath) c = .ok report ∧
      report.candidates.Nodup ∧ ∃ words names, Arranged report.candidates words names ∧
        ∀ n ∈ names, Keyword.ofText? n = none ∧ ∃ d ∈ Scope.definitions modulePath m,
          d.name = n ∧ d.start < ⟨pos.line, pos.column - report.parts.name.length⟩ := by
  refine ⟨_, Grammar.python_eq, fun source => ?_⟩
  obtain ⟨m, parsed, -⟩ := Module.parse_of_layered Grammar.python_consistent
    Grammar.python_layered source
  have regular := (Module.parse_regular Grammar.python_consistent Grammar.python_layered
    Grammar.python_sealed Grammar.python_secluded parsed).1
  refine ⟨m, parsed, fun pos modulePath c => ?_⟩
  obtain ⟨found, known⟩ := expectedAt_ok Grammar.python_consistent Grammar.python_layered source m
    (nameStart source pos)
  obtain ⟨words, names, arranged, scope⟩ := choices_arranged (Scope.evaluator modulePath) c
    (c.accepts · (Parts.ofPath (pathUntil source pos)).name) known
  have bound : ∀ n ∈ names, Keyword.ofText? n = none ∧ ∃ d ∈ Scope.definitions modulePath m,
      d.name = n ∧ d.start < nameStart source pos := fun n hn =>
    Scope.namesInScope_bound Grammar.python_keywords regular modulePath (scope n hn)
  exact ⟨_, complete_eq known, arranged.nodup fun n hn => (bound n hn).1, words, names, arranged,
    bound⟩

end Completion

end Caret

import Caret.Proofs.Landing
import Caret.Proofs.Lines
import Caret.Proofs.PythonTables
/-!
# The frames of an import

Behind the words `from` and `import`, at the start of a source, the dots are children of the
import's own frame, and names with dots between them go into a dotted name in it. The line end has
no place there: behind a name it closes the dotted name, behind a dot it leaves it open, and in both
cases recovery sets the import aside.

Results:
* `stacks_word`: the frames behind the word.
* `stacks_dots`, `stacks_path`: how they grow with dots, and with names and dots.
* `LeavesOpen`: what a line end leaves open of an import.
* `aboveSource_import`: recovery sets aside the frame of an import and those in it.
-/
namespace Caret

deriving instance DecidableEq for Parser.Move

variable {column : Nat} {ts : List Token} {t : Token} {names : List Text} {n : Text}

/-! ## Leaves of a line -/

/-- The leaf of a token that is no reserved word. -/
def plainLeaf (t : Token) : Leaf := ⟨.ofToken false t.kind, t.value, t.trivia, t.start⟩

/-- The leaves of tokens, as children of a rule. -/
def plainLeaves (ts : List Token) : List Tree := ts.map fun t => .leaf (plainLeaf t)

theorem Parser.leafOf_token {g : Grammar} {label : Nat} {kind : TokenKind}
    (h : g.label? label = some (.token kind)) (t : Token) : leafOf g label t = plainLeaf t := by
  rw [leafOf, h]
  rfl

namespace Parser

open Grammar

/-! ## The rules of imports -/

/-- The Python rule of this name. -/
def pythonRule (name : String) : RuleTable :=
  (pythonRules.find? (·.name == name)).getD ⟨0, "", #[], []⟩

/-- The frames around an import. -/
def outer : List Frame :=
  [⟨pythonRule "import_stmt", 1, []⟩, ⟨pythonRule "small_stmt", 1, []⟩,
    ⟨pythonRule "simple_stmt", 1, []⟩, ⟨pythonRule "stmt", 1, []⟩, ⟨pythonRule "file_input", 0, []⟩]

/-- Rules of an import with a state and a label that enters another rule there, and the state behind
it. -/
def importEntries : List (String × Nat × Nat × String × Nat) := [
  ("file_input", 0, 21, "stmt", 0), ("stmt", 0, 21, "simple_stmt", 1),
  ("simple_stmt", 0, 21, "small_stmt", 1), ("small_stmt", 0, 21, "import_stmt", 1),
  ("import_stmt", 0, 21, "import_from", 1),
  ("file_input", 0, 24, "stmt", 0), ("stmt", 0, 24, "simple_stmt", 1),
  ("simple_stmt", 0, 24, "small_stmt", 1), ("small_stmt", 0, 24, "import_stmt", 1),
  ("import_stmt", 0, 24, "import_name", 1),
  ("import_from", 1, 37, "dotted_name", 3), ("import_from", 2, 37, "dotted_name", 3),
  ("import_name", 1, 37, "dotted_as_names", 2), ("dotted_as_names", 0, 37, "dotted_as_name", 1),
  ("dotted_as_name", 0, 37, "dotted_name", 1)]

/-- Rules of an import with a state and a label that is shifted there, and the state behind it. -/
def importShifts : List (String × Nat × Nat × Nat) := [
  ("import_from", 0, 21, 1), ("import_name", 0, 24, 1), ("import_from", 1, 99, 2),
  ("import_from", 1, 8, 2), ("import_from", 2, 99, 2), ("import_from", 2, 8, 2),
  ("dotted_name", 0, 37, 1), ("dotted_name", 1, 99, 0)]

/-- Tokens of a path and of the line end, with their labels. -/
def importTokens : List (TokenKind × Nat) :=
  [(.name, 37), (.op .dot, 99), (.op .ellipsis, 8), (.newline, 2)]

/-- The rules of an import, the outermost first. -/
def importFrames : List String :=
  ["import_from", "import_name", "dotted_as_names", "dotted_as_name", "dotted_name"]

/-- What the tables say about imports. Labels 21 and 24 are `from` and `import`. -/
structure ImportTables : Prop where
  start : pythonTables.start? = some (pythonRule "file_input")
  words : classify pythonTables ⟨.name, "from".toList, [], .start⟩ = some 21 ∧
    classify pythonTables ⟨.name, "import".toList, [], .start⟩ = some 24
  tokens : ∀ x ∈ importTokens, pythonTables.tokenLabel? x.1 = some x.2 ∧
    pythonTables.label? x.2 = some (.token x.1)
  keywords : pythonTables.label? 21 = some (.keyword .kwFrom) ∧
    pythonTables.label? 24 = some (.keyword .kwImport)
  enters : ∀ x ∈ importEntries, match x with
    | (rule, state, label, sub, target) => move? pythonTables label ((pythonRule rule).arcs state) =
        some (.enter (pythonRule sub) target)
  takes : ∀ x ∈ importShifts, match x with
    | (rule, state, label, target) => move? pythonTables label ((pythonRule rule).arcs state) =
        some (.shift target) ∧ (pythonRule rule).acceptsOnly target = false
  refuses : ∀ x ∈ [("import_from", 1), ("import_from", 2), ("import_from", 3), ("dotted_name", 0)],
    move? pythonTables 2 ((pythonRule x.1).arcs x.2) = none ∧ (pythonRule x.1).accepts x.2 = false
  ends : move? pythonTables 2 ((pythonRule "dotted_name").arcs 1) = none ∧
    (pythonRule "dotted_name").accepts 1 = true
  names : ∀ name ∈ "file_input" :: importFrames, (pythonRule name).name = name
  around : ∀ f ∈ outer.take 4, takesStatement f = false ∧ f.children.isEmpty = true

theorem importTables : ImportTables where
  start := by decide +kernel
  words := by decide +kernel
  tokens := by decide +kernel
  keywords := by decide +kernel
  enters := by decide +kernel
  takes := by decide +kernel
  refuses := by decide +kernel
  ends := by decide +kernel
  names := by decide +kernel
  around := by decide +kernel

theorem new_python : (new pythonTables).stack = [⟨pythonRule "file_input", 0, []⟩] :=
  new_stack importTables.start

/-- A label enters a rule by its name. -/
theorem lands_enter {label state : Nat} {rule : String} {children : List Tree} {l : Leaf}
    {rest stack : List Frame} (sub : String) (target : Nat)
    (h : (rule, state, label, sub, target) ∈ importEntries)
    (next : Lands pythonTables label l
      (⟨pythonRule sub, 0, []⟩ :: ⟨pythonRule rule, target, children⟩ :: rest) stack) :
    Lands pythonTables label l (⟨pythonRule rule, state, children⟩ :: rest) stack :=
  .enter (importTables.enters _ h) next

theorem lands_shift {label state target : Nat} {rule : String} {children : List Tree} {l : Leaf}
    {rest : List Frame} (h : (rule, state, label, target) ∈ importShifts) :
    Lands pythonTables label l (⟨pythonRule rule, state, children⟩ :: rest)
      (⟨pythonRule rule, target, children ++ [.leaf l]⟩ :: rest) :=
  .shift (importTables.takes _ h).1 (importTables.takes _ h).2

/-- The two rules of imports. -/
inductive ImportRule
  | importFrom
  | importName

namespace ImportRule

/-- The word that the rule starts with. -/
def word : ImportRule → Text
  | importFrom => "from".toList
  | importName => "import".toList

/-- The word's label. -/
def label : ImportRule → Nat
  | importFrom => 21
  | importName => 24

def name : ImportRule → String
  | importFrom => "import_from"
  | importName => "import_name"

/-- The leaf of the word at the start of a source. -/
def leaf (i : ImportRule) : Leaf := ⟨.keyword, i.word, [], .start⟩

/-- The rule behind its word, with more children, in this state. -/
def frame (i : ImportRule) (state : Nat) (children : List Tree) : Frame :=
  ⟨pythonRule i.name, state, .leaf i.leaf :: children⟩

theorem spells (i : ImportRule) : SpellsName i.word := by
  cases i <;> exact ⟨⟨_, _, rfl, by decide⟩, List.all_eq_true.1 (by decide)⟩

end ImportRule

/-- Tokens that are shifted in a rule are shifted where this is entered. -/
theorem stacks_enter {label state : Nat} {rule : String} {children : List Tree}
    {rest stack : List Frame} (sub : String) (target : Nat)
    (class_ : classify pythonTables t = some label)
    (entry : (rule, state, label, sub, target) ∈ importEntries)
    (h : Stacks pythonTables (t :: ts)
      (⟨pythonRule sub, 0, []⟩ :: ⟨pythonRule rule, target, children⟩ :: rest) stack) :
    Stacks pythonTables (t :: ts) (⟨pythonRule rule, state, children⟩ :: rest) stack := by
  cases h with
  | cons flat class_' lands more =>
    obtain rfl : _ = label := Option.some.inj (class_'.symm.trans class_)
    exact .cons flat class_' (lands_enter sub target entry lands) more

/-! ## Tokens of a path -/

variable {children : List Tree} {rest : List Frame} {state : Nat}

/-- A token of a path, if it is no reserved word, has its label and is a plain leaf. -/
theorem classify_plain {k : TokenKind} {label : Nat} (kind : t.kind = k)
    (own : (k, label) ∈ importTokens) (free : k = .name → Keyword.ofText? t.value = none) :
    t.IsFlat ∧ classify pythonTables t = some label ∧
      leafOf pythonTables label t = plainLeaf t := by
  subst kind
  obtain ⟨token, named⟩ := importTables.tokens _ own
  refine ⟨?_, ?_, leafOf_token named t⟩
  · constructor <;> intro kind <;> simp [importTokens, kind] at own
  · rw [classify, token]
    split
    · next name => rw [free name]; rfl
    · rfl

/-- Such a token is shifted where the tables say so. -/
theorem stacks_shift {k : TokenKind} {rule : String} {stack : List Frame} (label target : Nat)
    (kind : t.kind = k) (own : (k, label) ∈ importTokens)
    (free : k = .name → Keyword.ofText? t.value = none)
    (h : (rule, state, label, target) ∈ importShifts)
    (more : Stacks pythonTables ts
      (⟨pythonRule rule, target, children ++ [.leaf (plainLeaf t)]⟩ :: rest) stack) :
    Stacks pythonTables (t :: ts) (⟨pythonRule rule, state, children⟩ :: rest) stack := by
  obtain ⟨flat, class_, leaf⟩ := classify_plain kind own free
  refine .cons flat class_ ?_ more
  rw [leaf]
  exact lands_shift h

/-- At the start of a source, the words `from` and `import` start their rules. -/
theorem stacks_word (i : ImportRule) :
    Stacks pythonTables [⟨.name, i.word, [], .start⟩] (new pythonTables).stack
      (i.frame 1 [] :: outer) := by
  have class_ : classify pythonTables ⟨.name, i.word, [], .start⟩ = some i.label := by
    cases i
    · exact importTables.words.1
    · exact importTables.words.2
  have leaf : leafOf pythonTables i.label ⟨.name, i.word, [], .start⟩ = i.leaf := by
    cases i
    · rw [leafOf, ImportRule.label, importTables.keywords.1]; rfl
    · rw [leafOf, ImportRule.label, importTables.keywords.2]; rfl
  have flat : Token.IsFlat ⟨.name, i.word, [], .start⟩ := by
    constructor <;> (intro other; cases other)
  rw [new_python]
  refine .cons flat class_ ?_ (.nil _)
  rw [leaf]
  refine lands_enter "stmt" 0 (by cases i <;> decide) ?_
  refine lands_enter "simple_stmt" 1 (by cases i <;> decide) ?_
  refine lands_enter "small_stmt" 1 (by cases i <;> decide) ?_
  refine lands_enter "import_stmt" 1 (by cases i <;> decide) ?_
  refine lands_enter i.name 1 (by cases i <;> decide) ?_
  exact lands_shift (by cases i <;> decide)

/-- Dots behind `from` are children of its rule. -/
theorem stacks_dots (dots : ∀ t ∈ ts, t.kind = .op .dot ∨ t.kind = .op .ellipsis)
    (from_ : state = 1 ∨ state = 2) : ∃ state', (state' = 1 ∨ state' = 2) ∧
      Stacks pythonTables ts (⟨pythonRule "import_from", state, children⟩ :: rest)
        (⟨pythonRule "import_from", state', children ++ plainLeaves ts⟩ :: rest) := by
  induction ts generalizing state children with
  | nil => exact ⟨state, from_, by simpa [plainLeaves] using Stacks.nil _⟩
  | cons t ts ih =>
    have kind := dots t List.mem_cons_self
    have tail : ∀ u ∈ ts, u.kind = .op .dot ∨ u.kind = .op .ellipsis := fun u hu =>
      dots u (List.mem_cons_of_mem _ hu)
    obtain ⟨state', behind, more⟩ : ∃ state', (state' = 1 ∨ state' = 2) ∧ Stacks pythonTables ts
        (⟨pythonRule "import_from", 2, children ++ [.leaf (plainLeaf t)]⟩ :: rest) _ :=
      ih tail (.inr rfl)
    rw [List.append_assoc] at more
    refine ⟨state', behind, ?_⟩
    rcases kind with kind | kind <;> rcases from_ with rfl | rfl
    · exact stacks_shift 99 2 kind (by decide) nofun (by decide) more
    · exact stacks_shift 99 2 kind (by decide) nofun (by decide) more
    · exact stacks_shift 8 2 kind (by decide) nofun (by decide) more
    · exact stacks_shift 8 2 kind (by decide) nofun (by decide) more

/-- The first token of a path is a name. -/
theorem starts_path (free : ∀ m ∈ n :: names, Keyword.ofText? m = none)
    (h : ts.map Token.bare = laid column (pathFaces (n :: names))) :
    ∃ t us, ts = t :: us ∧ classify pythonTables t = some 37 := by
  obtain ⟨faces, first⟩ := pathFaces_cons n names
  rw [first] at h
  obtain ⟨t, us, rfl, kind, value, -⟩ := laid_eq_cons h
  have own : Keyword.ofText? t.value = none := value ▸ free n List.mem_cons_self
  exact ⟨t, us, rfl, (classify_plain kind (by decide) fun _ => own).2.1⟩

/-- Names and the dots between them are children of a dotted name. -/
theorem stacks_path (free : ∀ m ∈ n :: names, Keyword.ofText? m = none)
    (h : ts.map Token.bare = laid column (pathFaces (n :: names))) :
    Stacks pythonTables ts (⟨pythonRule "dotted_name", 0, children⟩ :: rest)
      (⟨pythonRule "dotted_name", 1, children ++ plainLeaves ts⟩ :: rest) := by
  induction names generalizing n column ts children with
  | nil =>
    obtain ⟨t, rfl, kind, value, -⟩ := laid_eq_singleton h
    have own : Keyword.ofText? t.value = none := value ▸ free n List.mem_cons_self
    exact stacks_shift 37 1 kind (by decide) (fun _ => own) (by decide) (.nil _)
  | cons m names ih =>
    obtain ⟨t, us, rfl, kind, value, -, h⟩ := laid_eq_cons h
    obtain ⟨dot, vs, rfl, isDot, -, -, h⟩ := laid_eq_cons h
    have own : Keyword.ofText? t.value = none := value ▸ free n List.mem_cons_self
    have more : Stacks pythonTables vs (⟨pythonRule "dotted_name", 0,
        children ++ [.leaf (plainLeaf t)] ++ [.leaf (plainLeaf dot)]⟩ :: rest) _ :=
      ih (fun m hm => free m (List.mem_cons_of_mem _ hm)) h
    refine stacks_shift 37 1 kind (by decide) (fun _ => own) (by decide) ?_
    refine stacks_shift 99 0 isDot (by decide) nofun (by decide) ?_
    simpa [plainLeaves] using more

/-- A dot behind a name. -/
theorem stacks_dot (kind : t.kind = .op .dot) :
    Stacks pythonTables [t] (⟨pythonRule "dotted_name", 1, children⟩ :: rest)
      (⟨pythonRule "dotted_name", 0, children ++ plainLeaves [t]⟩ :: rest) :=
  stacks_shift 99 0 kind (by decide) nofun (by decide) (.nil _)

/-! ## The line end -/

theorem refused_from (from_ : state = 1 ∨ state = 2 ∨ state = 3) :
    Refused pythonTables 2 (⟨pythonRule "import_from", state, children⟩ :: rest)
      (⟨pythonRule "import_from", state, children⟩ :: rest) := by
  have own : ("import_from", state) ∈
      [("import_from", 1), ("import_from", 2), ("import_from", 3), ("dotted_name", 0)] := by
    rcases from_ with rfl | rfl | rfl <;> decide
  exact .stuck (importTables.refuses _ own).1 (importTables.refuses _ own).2

/-- Behind a name the line end closes the path. -/
theorem refused_path {path : List Tree} :
    Refused pythonTables 2
      (⟨pythonRule "dotted_name", 1, path⟩ :: ⟨pythonRule "import_from", 3, children⟩ :: rest)
      (⟨pythonRule "import_from", 3,
        children ++ [Frame.close ⟨pythonRule "dotted_name", 1, path⟩]⟩ :: rest) :=
  .close importTables.ends.1 importTables.ends.2 (refused_from (.inr (.inr rfl)))

/-- Behind a dot it has no place in the path. -/
theorem refused_dot :
    Refused pythonTables 2 (⟨pythonRule "dotted_name", 0, children⟩ :: rest)
      (⟨pythonRule "dotted_name", 0, children⟩ :: rest) :=
  .stuck (importTables.refuses ("dotted_name", 0) (by decide)).1
    (importTables.refuses ("dotted_name", 0) (by decide)).2

theorem ImportRule.frame_name (i : ImportRule) : (pythonRule i.name).name = i.name :=
  importTables.names _ (by cases i <;> decide)

/-- No rule of an import takes statements. -/
theorem takesStatement_import {name : String} (own : name ∈ importFrames) :
    takesStatement ⟨pythonRule name, state, children⟩ = false := by
  have other : ∀ name ∈ importFrames, name ∉ ["file_input", "suite", "simple_stmt"] := by decide
  obtain ⟨file, suite, simple⟩ : name ≠ "file_input" ∧ name ≠ "suite" ∧ name ≠ "simple_stmt" := by
    simpa using other name own
  simp [takesStatement, importTables.names name (List.mem_cons_of_mem _ own), file, suite, simple]

/-- Recovery sets aside the frame of an import and those in it. -/
theorem aboveSource_import {i : ImportRule} {inner : List Frame}
    (inside : ∀ f ∈ inner, takesStatement f = false) :
    AboveSource (inner ++ i.frame state children :: outer)
      (i.frame state children :: inner.reverse) := by
  have around := importTables.around
  have file := importTables.names "file_input" List.mem_cons_self
  have own : takesStatement (i.frame state children) = false :=
    takesStatement_import (by cases i <;> decide)
  have kept : ¬ (i.frame state children).children.isEmpty = true := by simp [ImportRule.frame]
  refine ⟨⟨inner ++ i.frame state children :: outer.take 4, ⟨pythonRule "file_input", 0, []⟩,
    ?_, file, ?_, ?_⟩, List.cons_ne_nil _ _⟩
  · rw [List.append_assoc, List.cons_append]
    rfl
  · intro f hf
    rcases List.mem_append.1 hf with hf | hf
    · exact inside f hf
    · rcases List.mem_cons.1 hf with rfl | hf
      · exact own
      · exact (around f hf).1
  · rw [List.reverse_append, List.reverse_cons, List.append_assoc,
      List.dropWhile_append_of_pos fun f hf => (around f (List.mem_reverse.1 hf)).2,
      List.singleton_append]
    exact List.dropWhile_cons_of_neg kept

/-! ## Imports that the line end breaks off -/

/-- Behind the word of an import at the start of a source, these tokens leave it open at a line end:
with these children, and with these frames in it. -/
structure LeavesOpen (i : ImportRule) (ts : List Token) (inner : List Frame)
    (children : List Tree) : Prop where
  refused : ∃ stack state, Stacks pythonTables ts (i.frame 1 [] :: outer) stack ∧
    Refused pythonTables 2 stack (inner ++ i.frame state children :: outer)
  inside : ∀ f ∈ inner, takesStatement f = false

variable {ds ps : List Token}

theorem leavesOpen_dots (dots : ∀ t ∈ ds, t.kind = .op .dot ∨ t.kind = .op .ellipsis) :
    LeavesOpen .importFrom ds [] (plainLeaves ds) := by
  obtain ⟨state, behind, shifted⟩ := stacks_dots dots (.inl rfl)
  refine ⟨⟨_, state, shifted, refused_from ?_⟩, by simp⟩
  exact behind.imp_right .inl

/-- Behind the dots of a `from`, names go into a dotted name. -/
theorem stacks_from (dots : ∀ t ∈ ds, t.kind = .op .dot ∨ t.kind = .op .ellipsis)
    (free : ∀ m ∈ n :: names, Keyword.ofText? m = none)
    (h : ps.map Token.bare = laid column (pathFaces (n :: names))) :
    Stacks pythonTables (ds ++ ps) (ImportRule.importFrom.frame 1 [] :: outer)
      (⟨pythonRule "dotted_name", 1, plainLeaves ps⟩ ::
        ImportRule.importFrom.frame 3 (plainLeaves ds) :: outer) := by
  obtain ⟨state, behind, shifted⟩ := stacks_dots dots (.inl rfl)
  refine shifted.append ?_
  obtain ⟨t, us, rfl, class_⟩ := starts_path free h
  rcases behind with rfl | rfl <;>
    exact stacks_enter "dotted_name" 3 class_ (by decide) (stacks_path free h)

/-- Without a dot behind it, the path of a `from` is closed by the line end. -/
theorem leavesOpen_path (dots : ∀ t ∈ ds, t.kind = .op .dot ∨ t.kind = .op .ellipsis)
    (free : ∀ m ∈ n :: names, Keyword.ofText? m = none)
    (h : ps.map Token.bare = laid column (pathFaces (n :: names))) :
    LeavesOpen .importFrom (ds ++ ps) []
      (plainLeaves ds ++ [Frame.close ⟨pythonRule "dotted_name", 1, plainLeaves ps⟩]) :=
  ⟨⟨_, 3, stacks_from dots free h, refused_path⟩, by simp⟩

theorem leavesOpen_from_dot (dots : ∀ t ∈ ds, t.kind = .op .dot ∨ t.kind = .op .ellipsis)
    (free : ∀ m ∈ n :: names, Keyword.ofText? m = none)
    (h : ps.map Token.bare = laid column (pathFaces (n :: names))) (last : t.kind = .op .dot) :
    LeavesOpen .importFrom (ds ++ ps ++ [t])
      [⟨pythonRule "dotted_name", 0, plainLeaves ps ++ plainLeaves [t]⟩] (plainLeaves ds) := by
  refine ⟨⟨_, 3, (stacks_from dots free h).append (stacks_dot last), refused_dot⟩, ?_⟩
  simpa using takesStatement_import (by decide)

theorem leavesOpen_name_dot (free : ∀ m ∈ n :: names, Keyword.ofText? m = none)
    (h : ps.map Token.bare = laid column (pathFaces (n :: names))) (last : t.kind = .op .dot) :
    LeavesOpen .importName (ps ++ [t])
      [⟨pythonRule "dotted_name", 0, plainLeaves ps ++ plainLeaves [t]⟩,
        ⟨pythonRule "dotted_as_name", 1, []⟩, ⟨pythonRule "dotted_as_names", 1, []⟩] [] := by
  obtain ⟨u, us, rfl, class_⟩ := starts_path free h
  refine ⟨⟨_, 2, .append ?_ (stacks_dot last), refused_dot⟩, ?_⟩
  · refine stacks_enter "dotted_as_names" 2 class_ (by decide) ?_
    refine stacks_enter "dotted_as_name" 1 class_ (by decide) ?_
    exact stacks_enter "dotted_name" 1 class_ (by decide) (stacks_path free h)
  · intro f hf
    simp only [List.mem_cons, List.not_mem_nil, or_false] at hf
    rcases hf with rfl | rfl | rfl <;> exact takesStatement_import (by decide)

end Parser

end Caret

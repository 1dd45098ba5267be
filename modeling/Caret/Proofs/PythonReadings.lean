import Caret.Proofs.ImportFrames
import Caret.Proofs.Yields
/-!
# What Python rules read

The rules between an expression and an atom read what the rule inside reads and stand for its tree.
A statement, a bracket or a list is read by following the states of its rule. The label of a token
is the one of its lexeme, so for reading it is enough to know the lexemes.

Results:
* `labelOf`, `classify_labelOf`: the label that tokens of a lexeme have.
* `Parses`: a Python rule reads the tokens and has this tree.
* `Parses.single`: a rule with a single child stands for the rule inside.
* `yields_enter`, `yields_shift`, `yields_end`: reading along the states of a rule.
* `Module.parse_parses`: a source whose tokens are read has the tree.
-/
namespace Caret

theorem Grammar.idxOf?_of_label? {g : Grammar} {l : Nat} {x : Label} (ok : g.Consistent)
    (h : g.label? l = some x) : g.labels.idxOf? x = some l := by
  cases found : g.labels.idxOf? x with
  | some i => rw [ok.distinct (label?_of_idxOf? found) h]
  | none =>
    have member : x ∈ g.labels := Array.mem_of_getElem? h
    rw [Array.idxOf?_eq_none_iff] at found
    exact absurd member found

/-- The lexeme of an operator. -/
def Operator.lexeme (o : Operator) : TokenKind × Text := (.op o, o.spelling.toList)

/-- The lexeme of a reserved word. -/
def Keyword.lexeme (k : Keyword) : TokenKind × Text := (.name, k.spelling.toList)

/-- The lexeme of a zero. -/
def zero : TokenKind × Text := (.number, ['0'])

/-- The lexeme of the line end. -/
def lineFeed : TokenKind × Text := (.newline, ['\n'])

namespace Parser

open Grammar

variable {rule sub : String} {s target l : Nat} {t : Token} {ts ts' : List Token} {tree u v : Tree}
  {us : List Tree} {label : Label} {k : Keyword}

/-! ## Labels of lexemes -/

/-- What tokens of this lexeme are for a grammar that has all reserved words. -/
def labelOf (face : TokenKind × Text) : Label :=
  match face.1 with
  | .name =>
    match Keyword.ofText? face.2 with
    | some k => .keyword k
    | none => .token .name
  | kind => .token kind

@[simp] theorem labelOf_operator (o : Operator) : labelOf o.lexeme = .token (.op o) := rfl

@[simp] theorem labelOf_keyword (k : Keyword) : labelOf k.lexeme = .keyword k := by
  simp [labelOf, Keyword.lexeme, Keyword.ofText?_spelling]

@[simp] theorem labelOf_zero : labelOf zero = .token .number := rfl

@[simp] theorem labelOf_lineFeed : labelOf lineFeed = .token .newline := rfl

/-- A token has the label of its lexeme. -/
theorem classify_labelOf {g : Grammar} (ok : g.Consistent)
    (h : g.label? l = some (labelOf (face t))) : classify g t = some l := by
  have found := idxOf?_of_label? ok h
  unfold classify tokenLabel?
  cases kind : t.kind with
  | name =>
    cases word : Keyword.ofText? t.value with
    | some k => simp_all [labelOf, face, keywordLabel?]
    | none => simp_all [labelOf, face]
  | _ => simp_all [labelOf, face]

@[simp] theorem tokenLeaf_value {g : Grammar} : (tokenLeaf g t).value = t.value := rfl

/-- The leaf of a token is a name if the label is. -/
theorem tokenLeaf_kind :
    (tokenLeaf pythonTables t).kind = .name ↔ labelOf (face t) = .token .name := by
  by_cases kind : t.kind = .name
  · have known : ∀ label ∈ .token .name :: Keyword.all.map .keyword,
        (pythonTables.labels.idxOf? label).isSome = true := by
      decide +kernel
    have own : labelOf (face t) ∈ .token .name :: Keyword.all.map .keyword := by
      unfold labelOf face
      rw [kind]
      dsimp only
      split
      · next k _ => exact List.mem_cons_of_mem _ (List.mem_map_of_mem (Keyword.mem_all k))
      · exact List.mem_cons_self
    obtain ⟨l, found⟩ := Option.isSome_iff_exists.1 (known _ own)
    have labelled := label?_of_idxOf? found
    rw [tokenLeaf, classify_labelOf python_consistent labelled, Option.getD_some, leafOf, labelled]
    unfold labelOf face
    cases word : Keyword.ofText? t.value <;> simp [kind, LeafKind.ofToken]
  · unfold tokenLeaf leafOf labelOf face
    cases named : t.kind <;> simp_all [LeafKind.ofToken]

/-! ## Rules -/

/-- Rules with a single child, and the rule that this child is of. -/
def singleChildren : List (String × String) := [
  ("power", "atom"), ("factor", "power"), ("term", "factor"), ("arith_expr", "term"),
  ("shift_expr", "arith_expr"), ("and_expr", "shift_expr"), ("xor_expr", "and_expr"),
  ("expr", "xor_expr"), ("comparison", "expr"), ("not_test", "comparison"),
  ("and_test", "not_test"), ("or_test", "and_test"), ("test", "or_test"),
  ("testlist_star_expr", "test"), ("testlist", "test"), ("small_stmt", "expr_stmt"),
  ("small_stmt", "pass_stmt"), ("stmt", "simple_stmt"), ("suite", "simple_stmt"),
  ("compound_stmt", "for_stmt"), ("compound_stmt", "with_stmt"), ("stmt", "compound_stmt")]

/-- Rules with a state and a rule that is entered there, and the state behind it. -/
def entries : List (String × Nat × String × Nat) := [
  ("file_input", 0, "stmt", 0), ("simple_stmt", 0, "small_stmt", 1),
  ("expr_stmt", 0, "testlist_star_expr", 1), ("expr_stmt", 2, "testlist_star_expr", 4),
  ("for_stmt", 1, "exprlist", 2), ("for_stmt", 3, "testlist", 4), ("for_stmt", 5, "suite", 6),
  ("with_stmt", 1, "with_item", 2), ("with_stmt", 3, "suite", 4),
  ("with_item", 0, "test", 1), ("with_item", 2, "expr", 3),
  ("atom", 1, "testlist_comp", 6), ("atom", 3, "testlist_comp", 7), ("star_expr", 1, "expr", 2),
  ("testlist_star_expr", 0, "test", 1), ("testlist_star_expr", 0, "star_expr", 1),
  ("testlist_star_expr", 2, "test", 1), ("testlist_star_expr", 2, "star_expr", 1),
  ("exprlist", 0, "expr", 1), ("exprlist", 0, "star_expr", 1),
  ("exprlist", 2, "expr", 1), ("exprlist", 2, "star_expr", 1),
  ("testlist_comp", 0, "test", 1), ("testlist_comp", 0, "star_expr", 1),
  ("testlist_comp", 2, "test", 4), ("testlist_comp", 2, "star_expr", 4)]

/-- Rules with a state and a label that is shifted there, and the state behind it. -/
def shifts : List (String × Nat × Label × Nat) := [
  ("file_input", 0, .token .endMarker, 1), ("simple_stmt", 1, .token .newline, 3),
  ("expr_stmt", 1, .token (.op .equal), 2), ("pass_stmt", 0, .keyword .kwPass, 1),
  ("for_stmt", 0, .keyword .kwFor, 1), ("for_stmt", 2, .keyword .kwIn, 3),
  ("for_stmt", 4, .token (.op .colon), 5), ("with_stmt", 0, .keyword .kwWith, 1),
  ("with_stmt", 2, .token (.op .colon), 3), ("with_item", 1, .keyword .kwAs, 2),
  ("atom", 0, .token .name, 2), ("atom", 0, .token .number, 2),
  ("atom", 0, .token (.op .lPar), 1), ("atom", 6, .token (.op .rPar), 2),
  ("atom", 0, .token (.op .lSqb), 3), ("atom", 7, .token (.op .rSqb), 2),
  ("star_expr", 0, .token (.op .star), 1), ("testlist_star_expr", 1, .token (.op .comma), 2),
  ("exprlist", 1, .token (.op .comma), 2), ("testlist_comp", 1, .token (.op .comma), 2),
  ("testlist_comp", 4, .token (.op .comma), 2)]

/-- Rules with a state where they may end. -/
def finals : List (String × Nat) := [
  ("file_input", 1), ("simple_stmt", 3), ("expr_stmt", 4), ("pass_stmt", 1), ("for_stmt", 6),
  ("with_stmt", 4), ("with_item", 3), ("atom", 2), ("star_expr", 2), ("testlist_star_expr", 1),
  ("testlist_star_expr", 2), ("exprlist", 1), ("exprlist", 2), ("testlist_comp", 1),
  ("testlist_comp", 2), ("testlist_comp", 4)]

/-- What the tables say about these rules. -/
structure ReadingTables : Prop where
  single : ∀ x ∈ singleChildren, (∃ a ∈ (pythonRule x.1).arcs 0,
    pythonTables.entered? a = some (pythonRule x.2) ∧
      (pythonRule x.1).accepts a.target = true) ∧
    Frame.keepsSingleChild.contains (pythonRule x.1).name = false
  enters : ∀ x ∈ entries, ∃ a ∈ (pythonRule x.1).arcs x.2.1,
    pythonTables.entered? a = some (pythonRule x.2.2.1) ∧ a.target = x.2.2.2
  takes : ∀ x ∈ shifts, ∃ a ∈ (pythonRule x.1).arcs x.2.1,
    pythonTables.label? a.label = some x.2.2.1 ∧ a.target = x.2.2.2
  ends : ∀ x ∈ finals, (pythonRule x.1).accepts x.2 = true
  names : ∀ x ∈ finals, (pythonRule x.1).name = x.1

theorem readingTables : ReadingTables where
  single := by decide +kernel
  enters := by decide +kernel
  takes := by decide +kernel
  ends := by decide +kernel
  names := by decide +kernel

/-- A Python rule reads the tokens and has this tree. -/
def Parses (rule : String) (ts : List Token) (tree : Tree) : Prop :=
  ∃ us, Yields pythonTables (pythonRule rule) 0 ts us ∧
    Frame.close ⟨pythonRule rule, 0, us⟩ = tree

/-- A rule with a single child stands for it. -/
theorem Parses.single (rule : String) (own : (rule, sub) ∈ singleChildren)
    (h : Parses sub ts tree) : Parses rule ts tree := by
  obtain ⟨us, inner, closed⟩ := h
  obtain ⟨⟨a, ha, enters, ends⟩, collapses⟩ := readingTables.single _ own
  have whole := Yields.node ha (entered?_eq.1 enters) inner (.finish ends)
  rw [List.append_nil, closed] at whole
  exact ⟨[tree], whole, Frame.close_only collapses⟩

/-- Where a rule is entered, it reads the next tokens. -/
theorem yields_enter (sub : String) (target : Nat) (own : (rule, s, sub, target) ∈ entries)
    (inner : Parses sub ts tree) (rest : Yields pythonTables (pythonRule rule) target ts' us) :
    Yields pythonTables (pythonRule rule) s (ts ++ ts') (tree :: us) := by
  obtain ⟨children, inner, rfl⟩ := inner
  obtain ⟨a, ha, enters, rfl⟩ := readingTables.enters _ own
  exact .node ha (entered?_eq.1 enters) inner rest

/-- Where a label is shifted, a token of this label is read. -/
theorem yields_shift (label : Label) (target : Nat) (own : (rule, s, label, target) ∈ shifts)
    (class_ : labelOf (face t) = label)
    (rest : Yields pythonTables (pythonRule rule) target ts us) :
    Yields pythonTables (pythonRule rule) s (t :: ts)
      (.leaf (tokenLeaf pythonTables t) :: us) := by
  obtain ⟨a, ha, labelled, rfl⟩ := readingTables.takes _ own
  have shifted := classify_labelOf python_consistent (labelled.trans (congrArg some class_.symm))
  have leaf : tokenLeaf pythonTables t = leafOf pythonTables a.label t := by
    rw [tokenLeaf, shifted, Option.getD_some]
  rw [leaf]
  exact .leaf ha shifted rest

theorem yields_operator (o : Operator) (target : Nat)
    (own : (rule, s, .token (.op o), target) ∈ shifts) (h : face t = o.lexeme)
    (rest : Yields pythonTables (pythonRule rule) target ts us) :
    Yields pythonTables (pythonRule rule) s (t :: ts) (.leaf (tokenLeaf pythonTables t) :: us) :=
  yields_shift _ target own (by rw [h, labelOf_operator]) rest

theorem yields_keyword (k : Keyword) (target : Nat)
    (own : (rule, s, .keyword k, target) ∈ shifts) (h : face t = k.lexeme)
    (rest : Yields pythonTables (pythonRule rule) target ts us) :
    Yields pythonTables (pythonRule rule) s (t :: ts) (.leaf (tokenLeaf pythonTables t) :: us) :=
  yields_shift _ target own (by rw [h, labelOf_keyword]) rest

theorem yields_end (own : (rule, s) ∈ finals) :
    Yields pythonTables (pythonRule rule) s [] [] := .finish (readingTables.ends _ own)

/-- A rule with several children is a branch of its name. -/
theorem parses_branch (own : (rule, s) ∈ finals)
    (h : Yields pythonTables (pythonRule rule) 0 ts (u :: v :: us)) :
    Parses rule ts (.branch rule (u :: v :: us)) := by
  refine ⟨_, h, ?_⟩
  show Tree.branch (pythonRule rule).name (u :: v :: us) = _
  rw [readingTables.names _ own]

/-- An atom is an expression. -/
theorem Parses.expr (h : Parses "atom" ts tree) : Parses "expr" ts tree := by
  have power := h.single "power" (by decide)
  have factor := power.single "factor" (by decide)
  have term := factor.single "term" (by decide)
  have sum := term.single "arith_expr" (by decide)
  have shift := sum.single "shift_expr" (by decide)
  have conjunction := shift.single "and_expr" (by decide)
  have exclusion := conjunction.single "xor_expr" (by decide)
  exact exclusion.single "expr" (by decide)

/-- An expression is a test. -/
theorem Parses.test (h : Parses "expr" ts tree) : Parses "test" ts tree := by
  have comparison := h.single "comparison" (by decide)
  have negation := comparison.single "not_test" (by decide)
  have conjunction := negation.single "and_test" (by decide)
  have disjunction := conjunction.single "or_test" (by decide)
  exact disjunction.single "test" (by decide)

/-- A rule with a single token stands for it. -/
theorem parses_token (rule : String) (label : Label) (s : Nat)
    (own : (rule, 0, label, s) ∈ shifts) (ends : (rule, s) ∈ finals)
    (collapses : Frame.keepsSingleChild.contains rule = false)
    (class_ : labelOf (face t) = label) :
    Parses rule [t] (.leaf (tokenLeaf pythonTables t)) := by
  refine ⟨_, yields_shift label s own class_ (yields_end ends), Frame.close_only ?_⟩
  rw [readingTables.names _ ends]
  exact collapses

/-- The leaves of the tree are those of the tokens. -/
theorem Parses.leaves (h : Parses rule ts tree) :
    tree.leaves = ts.map (tokenLeaf pythonTables) := by
  obtain ⟨us, read, rfl⟩ := h
  rw [Frame.leaves_close, Frame.leaves, read.leaves]

end Parser

/-- A source whose tokens are read has the tree. -/
theorem Module.parse_parses {source : Text} {tree : Tree}
    (h : Parser.Parses "file_input" (tokenize (completed source)) tree) :
    ∃ m, parse Grammar.pythonTables source = .ok m ∧ m.root = tree := by
  obtain ⟨us, read, rfl⟩ := h
  exact parse_yields Grammar.python_consistent Grammar.python_layered Grammar.python_sealed
    Grammar.python_predictive Grammar.python_endsOnce Parser.importTables.start read

end Caret

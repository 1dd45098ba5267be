import Caret.Proofs.Bindings
import Caret.Proofs.PythonReadings
import Caret.Proofs.Spacing
/-!
# Nested targets

A target is a name, or items in round or square brackets; an item is a target, perhaps behind a
star. Whatever the nesting and the white space, the rules of expressions read a target as a tree of
leaves, stars, lists and brackets, and such a tree binds its names as its place says.

Results:
* `Target`, `TargetList`: targets and items with commas.
* `Target.legible`, `Target.parses`: how they are read, by the scanner and by the rules.
* `TargetStatement.parses`: a statement with targets is read, and binds their names only.
* `targets_bound`: the definitions of a line that is such a statement.
-/
namespace Caret

open Caret.Parser Scope Grammar

variable {t : Token} {ts ts' : List Token} {tree : Tree} {depth : Nat} {o : Operator}
  {rest : List (TokenKind × Text)} {rule item : String} {s s' : Nat}

/-! ## Syntax -/

mutual

/-- What names are bound by: a name, or items in round or square brackets. -/
inductive Target
  | name (n : Text) (own : IsIdentifier n)
  | group (square : Bool) (items : TargetList)

/-- Items with commas between them, and perhaps one behind the last. An item is a target, perhaps
behind a star. -/
inductive TargetList
  | last (starred : Bool) (t : Target) (comma : Bool)
  | more (starred : Bool) (t : Target) (items : TargetList)

end

namespace Target

def opening (square : Bool) : Operator := if square then .lSqb else .lPar

def closing (square : Bool) : Operator := if square then .rSqb else .rPar

/-- The operator, if it is there. -/
def perhaps (o : Operator) (there : Bool) : List (TokenKind × Text) :=
  if there then [o.lexeme] else []

end Target

open Target in
mutual

/-- How a target is written. -/
def Target.lexemes : Target → List (TokenKind × Text)
  | .name n _ => [(.name, n)]
  | .group square items =>
    (opening square).lexeme :: (items.lexemes ++ [(closing square).lexeme])

/-- How items are written. -/
def TargetList.lexemes : TargetList → List (TokenKind × Text)
  | .last starred t comma => perhaps .star starred ++ (t.lexemes ++ perhaps .comma comma)
  | .more starred t items =>
    perhaps .star starred ++ (t.lexemes ++ Operator.comma.lexeme :: items.lexemes)

end

mutual

/-- The names of a target, in the order in which they are written. -/
def Target.names : Target → List Text
  | .name n _ => [n]
  | .group _ items => items.names

/-- The names of items. -/
def TargetList.names : TargetList → List Text
  | .last _ t _ => t.names
  | .more _ t items => t.names ++ items.names

end

/-! ## Scanning -/

theorem Keyword.spells (k : Keyword) : SpellsName k.spelling.toList := by
  cases k <;> exact ⟨⟨_, _, rfl, by decide⟩, List.all_eq_true.1 (by decide)⟩

/-- An operator that no other goes on behind may be written before anything. -/
theorem legible_alone (alone : o.continuations = []) (plain : o.isPlain = true)
    (more : Legible (o.depthAfter depth) rest) : Legible depth (o.lexeme :: rest) :=
  .operator plain (by simp [alone]) more

/-- The first character of a target does not go on behind a star. -/
theorem Target.first (t : Target) (rest : List (TokenKind × Text)) :
    ∀ c ∈ (written (t.lexemes ++ rest)).head?, c ∉ Operator.star.continuations := by
  have stars : Operator.star.continuations.all (!isNameStart ·) = true := by decide
  cases t with
  | name n own =>
    obtain ⟨c, text, rfl, start⟩ := own.start
    rintro d ⟨⟩ goesOn
    have other := List.all_eq_true.1 stars c goesOn
    rw [start] at other
    cases other
  | group square items => cases square <;> (rintro d ⟨⟩; decide)

theorem legible_star {starred : Bool} (t : Target) (more : Legible depth (t.lexemes ++ rest)) :
    Legible depth (Target.perhaps .star starred ++ (t.lexemes ++ rest)) := by
  cases starred with
  | false => exact more
  | true => exact .operator rfl (t.first rest) more

mutual

/-- A target is read as it is written. -/
theorem Target.legible (t : Target) {depth : Nat} {rest : List (TokenKind × Text)}
    (h : Legible depth rest) : Legible depth (t.lexemes ++ rest) := by
  match t with
  | .name n own => exact .name own.toSpellsName h
  | .group square items =>
    have closed : Legible (depth + 1) ((Target.closing square).lexeme :: rest) := by
      cases square <;> exact legible_alone (by decide) (by decide) h
    have inner := items.legible closed
    rw [Target.lexemes, List.cons_append, List.append_assoc]
    cases square <;> exact legible_alone (by decide) (by decide) inner

/-- So are items. -/
theorem TargetList.legible (items : TargetList) {depth : Nat} {rest : List (TokenKind × Text)}
    (h : Legible depth rest) : Legible depth (items.lexemes ++ rest) := by
  match items with
  | .last starred t comma =>
    have behind : Legible depth (Target.perhaps .comma comma ++ rest) := by
      cases comma with
      | false => exact h
      | true => exact legible_alone (by decide) (by decide) h
    rw [TargetList.lexemes, List.append_assoc, List.append_assoc]
    exact legible_star t (t.legible behind)
  | .more starred t items =>
    have behind : Legible depth (Operator.comma.lexeme :: (items.lexemes ++ rest)) :=
      legible_alone (by decide) (by decide) (items.legible h)
    rw [TargetList.lexemes, List.append_assoc, List.append_assoc]
    exact legible_star t (t.legible behind)

end

/-! ## Parsing -/

theorem labelOf_name {n : Text} (own : IsIdentifier n) : labelOf (.name, n) = .token .name := by
  simp [labelOf, own.free]

/-- A token that is no name, or a reserved word, is not bound. -/
theorem binds_token {kind : DefinitionKind} {path : List Crumb}
    (h : labelOf (face t) ≠ .token .name) :
    Binds kind path (.leaf (tokenLeaf pythonTables t)) :=
  binds_other fun name => h (tokenLeaf_kind.1 name)

theorem spells_leaf {kind : TokenKind} {text : String} (h : face t = (kind, text.toList)) :
    (Tree.leaf (tokenLeaf pythonTables t)).spells text = true :=
  beq_iff_eq.2 (congrArg Prod.snd h)

/-- Rules of lists with the rule of an item, a state before an item and the state behind it. -/
def listStates : List (String × String × Nat × Nat) := [
  ("testlist_star_expr", "test", 0, 1), ("testlist_star_expr", "test", 2, 1),
  ("exprlist", "expr", 0, 1), ("exprlist", "expr", 2, 1),
  ("testlist_comp", "test", 0, 1), ("testlist_comp", "test", 2, 4)]

/-- What the tables say about lists: behind an item the rule may end, or a comma leads to the state
before the next item. -/
structure ListRule (rule item : String) (s s' : Nat) : Prop where
  passing : rule ∈ passing
  element : item = "expr" ∨ item = "test"
  enters : (rule, s, item, s') ∈ entries
  starred : (rule, s, "star_expr", s') ∈ entries
  comma : (rule, s', .token (.op .comma), 2) ∈ shifts
  ends : (rule, s') ∈ finals ∧ (rule, 2) ∈ finals
  next : ∃ s'', (rule, item, 2, s'') ∈ listStates

theorem listRule (h : (rule, item, s, s') ∈ listStates) : ListRule rule item s s' := by
  simp only [listStates, List.mem_cons, Prod.mk.injEq, List.not_mem_nil, or_false] at h
  rcases h with ⟨rfl, rfl, rfl, rfl⟩ | ⟨rfl, rfl, rfl, rfl⟩ | ⟨rfl, rfl, rfl, rfl⟩ |
    ⟨rfl, rfl, rfl, rfl⟩ | ⟨rfl, rfl, rfl, rfl⟩ | ⟨rfl, rfl, rfl, rfl⟩
  all_goals
    refine ⟨by decide, by decide, by decide, by decide, by decide, by decide, ?_⟩
  all_goals
    first
    | exact ⟨1, by decide⟩
    | exact ⟨4, by decide⟩

/-- From a state on the rule reads these tokens, and what it reads are targets and commas. -/
def YieldsTargets (rule : String) (s : Nat) (ts : List Token) : Prop :=
  ∃ us, Yields pythonTables (pythonRule rule) s ts us ∧ ∀ u ∈ us, IsTarget u

theorem YieldsTargets.cons {u : Tree} {s' : Nat}
    (h : ∀ us, Yields pythonTables (pythonRule rule) s' ts' us →
      Yields pythonTables (pythonRule rule) s ts (u :: us)) (target : IsTarget u)
    (rest : YieldsTargets rule s' ts') : YieldsTargets rule s ts := by
  obtain ⟨us, read, all⟩ := rest
  exact ⟨u :: us, h us read, List.forall_mem_cons.2 ⟨target, all⟩⟩

/-- Where a list expects an item, it reads a target. -/
theorem ListRule.reads_target (list : ListRule rule item s s') (h : Parses "expr" ts tree)
    (target : IsTarget tree) (rest : YieldsTargets rule s' ts') :
    YieldsTargets rule s (ts ++ ts') := by
  have inner : Parses item ts tree := by
    rcases list.element with rfl | rfl
    · exact h
    · exact h.test
  exact .cons (fun _ => yields_enter item s' list.enters inner) target rest

/-- So it does behind a star. -/
theorem ListRule.reads_starred (list : ListRule rule item s s')
    (star : face t = Operator.star.lexeme) (h : Parses "expr" ts tree) (target : IsTarget tree)
    (rest : YieldsTargets rule s' ts') :
    YieldsTargets rule s (t :: (ts ++ ts')) := by
  have inside : Yields pythonTables (pythonRule "star_expr") 0 (t :: (ts ++ []))
      [.leaf (tokenLeaf pythonTables t), tree] :=
    yields_operator .star 1 (by decide) star
      (yields_enter "expr" 2 (by decide) h (yields_end (by decide)))
  rw [List.append_nil] at inside
  have whole := parses_branch (s := 2) (by decide) inside
  have starred : IsTarget (.branch "star_expr" [.leaf (tokenLeaf pythonTables t), tree]) :=
    .list (by decide) (by simp [IsTarget.leaf, target])
  exact .cons (fun _ => yields_enter "star_expr" s' list.starred whole) starred rest

/-- An item is read in a list. -/
theorem ListRule.reads {starred : Bool} {ss : List Token} (list : ListRule rule item s s')
    (own : ss.map face = Target.perhaps .star starred) (h : Parses "expr" ts tree)
    (target : IsTarget tree) (rest : YieldsTargets rule s' ts') :
    YieldsTargets rule s (ss ++ (ts ++ ts')) := by
  cases starred with
  | false =>
    obtain rfl : ss = [] := List.map_eq_nil_iff.1 own
    rw [List.nil_append]
    exact list.reads_target h target rest
  | true =>
    obtain ⟨star, rfl, first⟩ := List.map_eq_singleton_iff.1 own
    rw [List.singleton_append]
    exact list.reads_starred first h target rest

/-- Behind an item a comma is read. -/
theorem ListRule.reads_comma (list : ListRule rule item s s')
    (comma : face t = Operator.comma.lexeme) (rest : YieldsTargets rule 2 ts) :
    YieldsTargets rule s' (t :: ts) :=
  .cons (fun _ => yields_operator .comma 2 list.comma comma)
    (.leaf _) rest

/-- A list of targets is one. -/
theorem YieldsTargets.parses (h : YieldsTargets rule 0 ts)
    (list : (rule, item, s, s') ∈ listStates) :
    ∃ tree, Parses rule ts tree ∧ IsTarget tree := by
  obtain ⟨us, read, all⟩ := h
  refine ⟨_, ⟨us, read, rfl⟩, ?_⟩
  have whole : IsTarget (.branch (pythonRule rule).name us) := by
    rw [readingTables.names _ (listRule list).ends.1]
    exact .list (listRule list).passing all
  rcases Frame.close_cases ⟨pythonRule rule, 0, us⟩ with ⟨only, single, -, closed⟩ | ⟨closed, -⟩ <;>
    rw [closed]
  · exact all only (by rw [show us = [only] from single]; exact List.mem_singleton_self _)
  · exact whole

/-- A list of targets in brackets is one. -/
theorem parses_brackets {u v : Token} {opens closes : Operator} (s s' : Nat)
    (round : opens = .lPar ∨ opens = .lSqb)
    (first : ("atom", 0, .token (.op opens), s) ∈ shifts)
    (inner : ("atom", s, "testlist_comp", s') ∈ entries)
    (last : ("atom", s', .token (.op closes), 2) ∈ shifts) (opening : face u = opens.lexeme)
    (closing : face v = closes.lexeme) (h : Parses "testlist_comp" ts tree)
    (target : IsTarget tree) :
    ∃ tree, Parses "expr" (u :: (ts ++ [v])) tree ∧ IsTarget tree := by
  have read := yields_operator opens s first opening
    (yields_enter "testlist_comp" s' inner h
      (yields_operator closes 2 last closing
        (yields_end (by decide))))
  refine ⟨_, (parses_branch (s := 2) (by decide) read).expr, .brackets ?_ ?_⟩
  · have value : u.value = opens.spelling.toList := congrArg Prod.snd opening
    rcases round with rfl | rfl <;>
      simp [inBrackets, isText, Tree.spells, Tree.value, tokenLeaf_value, value, Operator.spelling]
  · simp [IsTarget.leaf, target]

mutual

/-- A target is read as an expression. -/
theorem Target.parses (t : Target) {ts : List Token} (own : ts.map face = t.lexemes) :
    ∃ tree, Parses "expr" ts tree ∧ IsTarget tree := by
  match t with
  | .name n identifier =>
    obtain ⟨u, rfl, first⟩ := List.map_eq_singleton_iff.1 own
    have class_ : labelOf (face u) = .token .name := by
      rw [first, labelOf_name identifier]
    exact ⟨_, (parses_token "atom" _ 2 (by decide) (by decide) (by decide) class_).expr, .leaf _⟩
  | .group square items =>
    obtain ⟨u, more, rfl, opens, behind⟩ := List.map_eq_cons_iff.1 own
    obtain ⟨inner, last, rfl, inside, behind⟩ := List.map_eq_append_iff.1 behind
    obtain ⟨v, rfl, closes⟩ := List.map_eq_singleton_iff.1 behind
    have own : ("testlist_comp", "test", 0, 1) ∈ listStates := by decide
    obtain ⟨list, read, target⟩ := (items.yields own inside).parses own
    cases square with
    | false =>
      exact parses_brackets 1 6 (.inl rfl) (by decide) (by decide) (by decide) opens closes read
        target
    | true =>
      exact parses_brackets 3 7 (.inr rfl) (by decide) (by decide) (by decide) opens closes read
        target

/-- Items are read in a list. -/
theorem TargetList.yields (items : TargetList) {ts : List Token} {rule item : String} {s s' : Nat}
    (h : (rule, item, s, s') ∈ listStates) (own : ts.map face = items.lexemes) :
    YieldsTargets rule s ts := by
  have list := listRule h
  match items with
  | .last starred t comma =>
    obtain ⟨ss, more, rfl, star, own⟩ := List.map_eq_append_iff.1 own
    obtain ⟨ts, cs, rfl, inner, behind⟩ := List.map_eq_append_iff.1 own
    obtain ⟨tree, read, target⟩ := t.parses inner
    refine list.reads star read target ?_
    cases comma with
    | false =>
      obtain rfl : cs = [] := List.map_eq_nil_iff.1 behind
      exact ⟨[], yields_end list.ends.1, by simp⟩
    | true =>
      obtain ⟨c, rfl, comma⟩ := List.map_eq_singleton_iff.1 behind
      exact list.reads_comma comma ⟨[], yields_end list.ends.2, by simp⟩
  | .more starred t items =>
    obtain ⟨ss, more, rfl, star, own⟩ := List.map_eq_append_iff.1 own
    obtain ⟨ts, cs, rfl, inner, behind⟩ := List.map_eq_append_iff.1 own
    obtain ⟨c, us, rfl, comma, rest⟩ := List.map_eq_cons_iff.1 behind
    obtain ⟨tree, read, target⟩ := t.parses inner
    obtain ⟨s'', next⟩ := list.next
    exact list.reads star read target (list.reads_comma comma (items.yields next rest))

end

/-! ## Statements -/

/-- Statements of one line that bind targets: `T = 0`, `for T in 0: pass`, `with 0 as T: pass`. -/
inductive TargetStatement
  | assignment (targets : TargetList)
  | loop (targets : TargetList)
  | context (target : Target)

namespace TargetStatement

/-- How the names of the targets are bound. -/
def kind : TargetStatement → DefinitionKind
  | assignment _ => .assignment
  | loop _ => .loopTarget
  | context _ => .withTarget

/-- The names of the targets, in the order in which they are written. -/
def names : TargetStatement → List Text
  | assignment targets | loop targets => targets.names
  | context target => target.names

/-- How the statement is written. -/
def lexemes : TargetStatement → List (TokenKind × Text)
  | assignment targets => targets.lexemes ++ [Operator.equal.lexeme, zero]
  | loop targets => Keyword.kwFor.lexeme :: (targets.lexemes ++
      [Keyword.kwIn.lexeme, zero, Operator.colon.lexeme, Keyword.kwPass.lexeme])
  | context target => Keyword.kwWith.lexeme :: zero :: Keyword.kwAs.lexeme :: (target.lexemes ++
      [Operator.colon.lexeme, Keyword.kwPass.lexeme])

/-- A statement is read as it is written. -/
theorem legible (s : TargetStatement) : Legible 0 s.lexemes := by
  have body : Legible 0 [Operator.colon.lexeme, Keyword.kwPass.lexeme] :=
    .operator (by decide) (by rintro c ⟨⟩; decide) (.name (Keyword.spells _) .nil)
  cases s with
  | assignment targets =>
    exact targets.legible (.operator (by decide) (by rintro c ⟨⟩; decide) (.zero .nil))
  | loop targets =>
    exact .name (Keyword.spells _) (targets.legible (.name (Keyword.spells _) (.zero body)))
  | context target =>
    exact .name (Keyword.spells _) (.zero (.name (Keyword.spells _) (target.legible body)))

end TargetStatement

section Assembly

variable {u v w x y z : Token} {kind : DefinitionKind}

theorem parses_zero (own : face u = zero) :
    Parses "expr" [u] (.leaf (tokenLeaf pythonTables u)) :=
  (parses_token "atom" (.token .number) 2 (by decide) (by decide) (by decide)
    (by rw [own, labelOf_zero])).expr

/-- A small statement and a line end are a line. -/
theorem parses_line (h : Parses "small_stmt" ts tree) (lineEnd : face u = lineFeed) :
    Parses "simple_stmt" (ts ++ [u])
      (.branch "simple_stmt" [tree, .leaf (tokenLeaf pythonTables u)]) :=
  parses_branch (s := 3) (by decide) (yields_enter "small_stmt" 1 (by decide) h
    (yields_shift (.token .newline) 3 (by decide) (by rw [lineEnd, labelOf_lineFeed])
      (yields_end (by decide))))

/-- A body that does nothing, on the line of its statement. -/
theorem parses_pass (pass : face v = Keyword.kwPass.lexeme) (lineEnd : face u = lineFeed) :
    ∃ tree, Parses "suite" [v, u] tree ∧ ∀ kind path, Binds kind path tree := by
  have small := (parses_token "pass_stmt" (.keyword .kwPass) 1 (by decide) (by decide) (by decide)
    (by rw [pass, labelOf_keyword])).single "small_stmt" (by decide)
  refine ⟨_, (parses_line small lineEnd).single "suite" (by decide), fun kind path => ?_⟩
  exact (BindsAmong.cons (binds_token (by simp [pass]))
    (.cons (binds_token (by simp [lineEnd])) .nil)).branch

/-- An assignment binds its targets. -/
theorem parses_assignment (h : Parses "testlist_star_expr" ts tree) (target : IsTarget tree)
    (equal : face v = Operator.equal.lexeme) (value : face w = zero)
    (lineEnd : face u = lineFeed) :
    ∃ tree, Parses "stmt" (ts ++ [v, w] ++ [u]) tree ∧ ∀ path, Binds .assignment path tree := by
  have right := (parses_zero value).test.single "testlist_star_expr" (by decide)
  have read : Yields pythonTables (pythonRule "expr_stmt") 0 (ts ++ [v, w])
      [tree, .leaf (tokenLeaf pythonTables v), .leaf (tokenLeaf pythonTables w)] :=
    yields_enter "testlist_star_expr" 1 (by decide) h
      (yields_operator .equal 2 (by decide) equal
        (yields_enter "testlist_star_expr" 4 (by decide) right (yields_end (by decide))))
  have small := (parses_branch (s := 4) (by decide) read).single "small_stmt" (by decide)
  refine ⟨_, ((parses_line small lineEnd).single "stmt" (by decide)), fun path => ?_⟩
  refine (BindsAmong.cons ?_ (.cons (binds_token (by simp [lineEnd])) .nil)).branch
  exact (BindsAmong.cons (target.assigned (spells_leaf equal))
    (.cons (binds_token (by simp [equal])) (.cons (binds_token (by simp [value])) .nil))).branch

/-- A loop binds its targets. -/
theorem parses_loop (first : face v = Keyword.kwFor.lexeme) (h : Parses "exprlist" ts tree)
    (target : IsTarget tree) (within : face w = Keyword.kwIn.lexeme) (value : face x = zero)
    (colon : face y = Operator.colon.lexeme) (pass : face z = Keyword.kwPass.lexeme)
    (lineEnd : face u = lineFeed) :
    ∃ tree, Parses "stmt" (v :: (ts ++ [w, x, y, z]) ++ [u]) tree ∧
      ∀ path, Binds .loopTarget path tree := by
  have values := (parses_zero value).test.single "testlist" (by decide)
  obtain ⟨body, inner, others⟩ := parses_pass pass lineEnd
  have read : Yields pythonTables (pythonRule "for_stmt") 0 (v :: (ts ++ [w, x, y, z, u]))
      [.leaf (tokenLeaf pythonTables v), tree, .leaf (tokenLeaf pythonTables w),
        .leaf (tokenLeaf pythonTables x), .leaf (tokenLeaf pythonTables y), body] :=
    yields_keyword .kwFor 1 (by decide) first
      (yields_enter "exprlist" 2 (by decide) h
        (yields_keyword .kwIn 3 (by decide) within
          (yields_enter "testlist" 4 (by decide) values
            (yields_operator .colon 5 (by decide) colon
              (yields_enter "suite" 6 (by decide) inner (yields_end (by decide)))))))
  have whole := ((parses_branch (s := 6) (by decide) read).single "compound_stmt"
    (by decide)).single "stmt" (by decide)
  refine ⟨_, by simpa using whole, fun path => ?_⟩
  exact (BindsAmong.cons (binds_token (by simp [first])) (.cons target.looped
    (.cons (binds_token (by simp [within])) (.cons (binds_token (by simp [value]))
      (.cons (binds_token (by simp [colon])) (.cons (others _ _) .nil)))))).branch

/-- A context binds its target. -/
theorem parses_context (first : face v = Keyword.kwWith.lexeme) (value : face w = zero)
    (as_ : face x = Keyword.kwAs.lexeme) (h : Parses "expr" ts tree) (target : IsTarget tree)
    (colon : face y = Operator.colon.lexeme) (pass : face z = Keyword.kwPass.lexeme)
    (lineEnd : face u = lineFeed) :
    ∃ tree, Parses "stmt" (v :: w :: x :: (ts ++ [y, z]) ++ [u]) tree ∧
      ∀ path, Binds .withTarget path tree := by
  obtain ⟨body, inner, others⟩ := parses_pass pass lineEnd
  have managed : Yields pythonTables (pythonRule "with_item") 0 (w :: x :: ts)
      [.leaf (tokenLeaf pythonTables w), .leaf (tokenLeaf pythonTables x), tree] := by
    have behind : Yields pythonTables (pythonRule "with_item") 2 (ts ++ []) [tree] :=
      yields_enter "expr" 3 (by decide) h (yields_end (by decide))
    rw [List.append_nil] at behind
    exact yields_enter "test" 1 (by decide) (parses_zero value).test
      (yields_keyword .kwAs 2 (by decide) as_ behind)
  have read : Yields pythonTables (pythonRule "with_stmt") 0
      (v :: (w :: x :: ts ++ [y, z, u])) [.leaf (tokenLeaf pythonTables v),
        .branch "with_item" [.leaf (tokenLeaf pythonTables w), .leaf (tokenLeaf pythonTables x),
          tree], .leaf (tokenLeaf pythonTables y), body] :=
    yields_keyword .kwWith 1 (by decide) first
      (yields_enter "with_item" 2 (by decide) (parses_branch (s := 3) (by decide) managed)
        (yields_operator .colon 3 (by decide) colon
          (yields_enter "suite" 4 (by decide) inner (yields_end (by decide)))))
  have whole := ((parses_branch (s := 4) (by decide) read).single "compound_stmt"
    (by decide)).single "stmt" (by decide)
  refine ⟨_, by simpa using whole, fun path => ?_⟩
  refine (BindsAmong.cons (binds_token (by simp [first])) (.cons ?_
    (.cons (binds_token (by simp [colon])) (.cons (others _ _) .nil)))).branch
  exact (BindsAmong.cons (binds_token (by simp [value])) (.cons (binds_token (by simp [as_]))
    (.cons (target.managed (spells_leaf as_)) .nil))).branch

/-- A statement is read as one, and binds the names of its targets and nothing else. -/
theorem TargetStatement.parses (s : TargetStatement) (own : ts.map face = s.lexemes)
    (lineEnd : face u = lineFeed) :
    ∃ tree, Parses "stmt" (ts ++ [u]) tree ∧ ∀ path, Binds s.kind path tree := by
  cases s with
  | assignment targets =>
    obtain ⟨ts, more, rfl, inner, behind⟩ := List.map_eq_append_iff.1 own
    obtain ⟨v, more, rfl, equal, behind⟩ := List.map_eq_cons_iff.1 behind
    obtain ⟨w, rfl, value⟩ := List.map_eq_singleton_iff.1 behind
    have list : ("testlist_star_expr", "test", 0, 1) ∈ listStates := by decide
    obtain ⟨tree, read, target⟩ := (targets.yields list inner).parses list
    exact parses_assignment read target equal value lineEnd
  | loop targets =>
    obtain ⟨v, more, rfl, first, behind⟩ := List.map_eq_cons_iff.1 own
    obtain ⟨ts, more, rfl, inner, behind⟩ := List.map_eq_append_iff.1 behind
    obtain ⟨w, more, rfl, within, behind⟩ := List.map_eq_cons_iff.1 behind
    obtain ⟨x, more, rfl, value, behind⟩ := List.map_eq_cons_iff.1 behind
    obtain ⟨y, more, rfl, colon, behind⟩ := List.map_eq_cons_iff.1 behind
    obtain ⟨z, rfl, pass⟩ := List.map_eq_singleton_iff.1 behind
    have list : ("exprlist", "expr", 0, 1) ∈ listStates := by decide
    obtain ⟨tree, read, target⟩ := (targets.yields list inner).parses list
    exact parses_loop first read target within value colon pass lineEnd
  | context target =>
    obtain ⟨v, more, rfl, first, behind⟩ := List.map_eq_cons_iff.1 own
    obtain ⟨w, more, rfl, value, behind⟩ := List.map_eq_cons_iff.1 behind
    obtain ⟨x, more, rfl, as_, behind⟩ := List.map_eq_cons_iff.1 behind
    obtain ⟨ts, more, rfl, inner, behind⟩ := List.map_eq_append_iff.1 behind
    obtain ⟨y, more, rfl, colon, behind⟩ := List.map_eq_cons_iff.1 behind
    obtain ⟨z, rfl, pass⟩ := List.map_eq_singleton_iff.1 behind
    obtain ⟨tree, read, target⟩ := target.parses inner
    exact parses_context first value as_ read target colon pass lineEnd

/-- A source with one statement. -/
theorem parses_file (h : Parses "stmt" ts tree) (binds : ∀ path, Binds kind path tree)
    (marker : v.kind = .endMarker) :
    ∃ root, Parses "file_input" (ts ++ [v]) root ∧ Binds kind [] root := by
  have last : labelOf (face v) = .token .endMarker := by
    rw [face, marker]
    rfl
  have read : Yields pythonTables (pythonRule "file_input") 0 (ts ++ [v])
      [tree, .leaf (tokenLeaf pythonTables v)] :=
    yields_enter "stmt" 0 (by decide) h
      (yields_shift (.token .endMarker) 1 (by decide) last (yields_end (by decide)))
  refine ⟨_, parses_branch (s := 1) (by decide) read, ?_⟩
  exact (BindsAmong.cons (binds _) (.cons (binds_token (by simp [last])) .nil)).branch

end Assembly

/-! ## Names -/

/-- The token is a name and no reserved word. -/
def Token.isIdentifier (t : Token) : Bool := t.kind == .name && (Keyword.ofText? t.value).isNone

theorem isIdentifier_eq :
    Token.isIdentifier = (fun face => decide (labelOf face = .token .name)) ∘ face := by
  funext ⟨kind, value, trivia, start⟩
  unfold Token.isIdentifier labelOf face Function.comp
  cases kind with
  | name => cases word : Keyword.ofText? value <;> simp [word]
  | _ => simp

/-- The identifiers among lexemes. -/
def identifiers (faces : List (TokenKind × Text)) : List Text :=
  (faces.filter fun face => labelOf face = .token .name).map (·.2)

@[simp] theorem identifiers_append (faces faces' : List (TokenKind × Text)) :
    identifiers (faces ++ faces') = identifiers faces ++ identifiers faces' := by
  simp [identifiers]

@[simp] theorem identifiers_operator (faces : List (TokenKind × Text)) :
    identifiers (o.lexeme :: faces) = identifiers faces := by
  simp [identifiers]

@[simp] theorem identifiers_keyword (k : Keyword) (faces : List (TokenKind × Text)) :
    identifiers (k.lexeme :: faces) = identifiers faces := by
  simp [identifiers]

@[simp] theorem identifiers_zero (faces : List (TokenKind × Text)) :
    identifiers (zero :: faces) = identifiers faces := by
  simp [identifiers]

@[simp] theorem identifiers_nil : identifiers [] = [] := rfl

@[simp] theorem identifiers_perhaps {there : Bool} : identifiers (Target.perhaps o there) = [] := by
  cases there <;> simp [Target.perhaps]

mutual

theorem Target.identifiers_lexemes (t : Target) : identifiers t.lexemes = t.names := by
  match t with
  | .name n own => simp [Target.lexemes, Target.names, identifiers, labelOf_name own]
  | .group square items => simp [Target.lexemes, Target.names, items.identifiers_lexemes]

theorem TargetList.identifiers_lexemes (items : TargetList) :
    identifiers items.lexemes = items.names := by
  match items with
  | .last starred t comma => simp [TargetList.lexemes, TargetList.names, t.identifiers_lexemes]
  | .more starred t items =>
    simp [TargetList.lexemes, TargetList.names, t.identifiers_lexemes, items.identifiers_lexemes]

end

/-- The identifiers of a statement are the names of its targets. -/
theorem TargetStatement.identifiers_lexemes (s : TargetStatement) :
    identifiers s.lexemes = s.names := by
  cases s <;> simp [lexemes, names, Target.identifiers_lexemes, TargetList.identifiers_lexemes]

/-- The identifiers among tokens. -/
theorem identifiers_faces (ts : List Token) :
    identifiers (ts.map face) = (ts.filter Token.isIdentifier).map (·.value) := by
  rw [identifiers, List.filter_map, List.map_map, isIdentifier_eq]
  rfl

/-- The leaves of tokens that are names. -/
theorem nameLeaves (ts : List Token) :
    (ts.map (tokenLeaf pythonTables)).filter (·.kind = .name) =
      (ts.filter Token.isIdentifier).map (tokenLeaf pythonTables) := by
  rw [List.filter_map]
  refine congrArg (List.map _) (List.filter_congr fun t _ => ?_)
  simp [isIdentifier_eq, tokenLeaf_kind]

/-- Where all names are bound alike, the definitions are those of the identifiers. -/
theorem definitions_of_binds {m : Module} {kind : DefinitionKind} {modulePath : Option String}
    (h : Binds kind [] m.root) (ordered : m.root.leaves.Pairwise Leaf.Before)
    (leaves : m.root.leaves = ts.map (tokenLeaf pythonTables)) :
    definitions modulePath m = (ts.filter Token.isIdentifier).map
      (fun t => ⟨t.value, kind, t.start, t.stop, modulePath⟩) := by
  rw [definitions_eq ordered]
  refine (h modulePath).trans ?_
  rw [leaves, nameLeaves, List.map_map]
  rfl

/-- Take a statement that binds nested targets, written on one line with any white space between
its lexemes, and a source that is this line. With the Python grammar, the definitions in it are the
identifiers of the line, each at its place, in the order in which they are written, all bound as the
statement binds its targets. Their names are those of the targets. -/
theorem targets_bound : ∃ g, Grammar.python = .ok g ∧
    ∀ (s : TargetStatement) (line : List Stretch) (source : Text),
      line.map Stretch.face = s.lexemes → Spaced line →
      Module.completed source = Stretch.text line ++ ['\n'] →
      ∃ m, Module.parse g source = .ok m ∧ ∀ modulePath,
        definitions modulePath m = ((Stretch.laid .start line).filter Token.isIdentifier).map
          (fun t => ⟨t.value, s.kind, t.start, t.stop, modulePath⟩) ∧
        (definitions modulePath m).map (·.name) = s.names := by
  refine ⟨_, python_eq, fun s line source written spaced whole => ?_⟩
  have some : line ≠ [] := by
    rintro rfl
    cases s <;> simp [TargetStatement.lexemes] at written
  have legible : Legible 0 (line.map Stretch.face) := by
    rw [written]
    exact s.legible
  obtain ⟨ts, u, v, tokens, laid, lineEnd, marker⟩ := legible.tokenize spaced some
  have faces : ts.map face = line.map Stretch.face := by
    rw [← Stretch.faces_laid .start line, ← laid, List.map_map]
    rfl
  -- the tokens are read as the statement, so the tree that is read is the tree of the source
  obtain ⟨tree, read, bound⟩ := s.parses (faces.trans written) lineEnd
  obtain ⟨root, file, binds⟩ := parses_file read bound marker
  have leaves := file.leaves
  rw [List.append_assoc, List.singleton_append, ← tokens, ← whole] at file
  obtain ⟨m, parsed, rfl⟩ := Module.parse_parses file
  refine ⟨m, parsed, fun modulePath => ?_⟩
  have ordered := Module.leaves_ordered python_consistent python_layered parsed
  have found : definitions modulePath m =
      ((Stretch.laid .start line).filter Token.isIdentifier).map
        (fun t => ⟨t.value, s.kind, t.start, t.stop, modulePath⟩) := by
    have noName : u.isIdentifier = false := by simp [isIdentifier_eq, lineEnd, labelOf]
    have noName' : v.isIdentifier = false := by simp [Token.isIdentifier, marker]
    have own : (ts ++ [u] ++ [v]).filter Token.isIdentifier = ts.filter Token.isIdentifier := by
      simp [noName, noName']
    rw [definitions_of_binds binds ordered leaves, own, ← laid, List.filter_map, List.map_map]
    rfl
  refine ⟨found, ?_⟩
  rw [found, List.map_map, ← s.identifiers_lexemes, ← written, ← Stretch.faces_laid .start line,
    identifiers_faces]
  rfl

/-- A name and a starred one, nested, with a comma behind the only item of the list. -/
theorem targets_bound_nested : ∃ g m, Grammar.python = .ok g ∧
    Module.parse g "for (a, [*b]),\tin 0:pass".toList = .ok m ∧ definitions none m = [
      ⟨['a'], .loopTarget, ⟨1, 5⟩, ⟨1, 6⟩, none⟩,
      ⟨['b'], .loopTarget, ⟨1, 10⟩, ⟨1, 11⟩, none⟩] := by
  have a : IsIdentifier ['a'] := ⟨⟨⟨'a', [], rfl, by decide⟩, by simp; decide⟩, by decide⟩
  have b : IsIdentifier ['b'] := ⟨⟨⟨'b', [], rfl, by decide⟩, by simp; decide⟩, by decide⟩
  obtain ⟨g, python, all⟩ := targets_bound
  obtain ⟨m, parsed, binds⟩ := all
    (.loop (.last false (.group false (.more false (.name ['a'] a) (.last false
      (.group true (.last true (.name ['b'] b) false)) false))) true))
    [⟨.name, ['f', 'o', 'r'], [' ']⟩, ⟨.op .lPar, ['('], []⟩, ⟨.name, ['a'], []⟩,
      ⟨.op .comma, [','], [' ']⟩, ⟨.op .lSqb, ['['], []⟩, ⟨.op .star, ['*'], []⟩,
      ⟨.name, ['b'], []⟩, ⟨.op .rSqb, [']'], []⟩, ⟨.op .rPar, [')'], []⟩,
      ⟨.op .comma, [','], ['\t']⟩, ⟨.name, ['i', 'n'], [' ']⟩, ⟨.number, ['0'], []⟩,
      ⟨.op .colon, [':'], []⟩, ⟨.name, ['p', 'a', 's', 's'], []⟩]
    "for (a, [*b]),\tin 0:pass".toList rfl ⟨by simp [Scanner.IsBlank], by decide⟩ (by decide)
  exact ⟨g, m, python, parsed, (binds none).1.trans rfl⟩

end Caret

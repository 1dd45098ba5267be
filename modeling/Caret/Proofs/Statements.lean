import Caret.Proofs.Growth
import Caret.Proofs.Lookup
/-!
# Simple statements in a parse without recovery

A simple statement holds parts with semicolons between them and a line end behind them. A part holds
neither, nor a block, and only containers are around it. Its first token finds, on its way, the
frame of the simple statement with the rule of the part just entered on it.

Results:
* `Grammar.Stated`: the tables have simple statements of parts, in containers only.
* `Grammar.Worded`: a part that is a single token is a reserved word.
* `Parser.around_statement`, `Parser.around_part`: only containers are around a statement or a part.
* `Parser.part_built`: what a part of a simple statement is built of.
* `Parser.part_title`: a part is none of the leaves in which nothing can be completed.
-/
namespace Caret

/-! ## Tables -/

/-- The rules that statements stand in. -/
def statementRules : List String :=
  ["file_input", "stmt", "compound_stmt", "decorated", "simple_stmt", "suite", "if_stmt",
    "while_stmt", "for_stmt", "try_stmt", "with_stmt", "funcdef", "classdef"]

/-- The rules that may hold a line end. -/
def lineRules : List String := "decorators" :: "decorator" :: statementRules

namespace Grammar

variable {g : Grammar}

/-- The tokens that end a part of a simple statement. -/
def partEnds : List TokenKind := [.newline, .op .semi]

/-- The tokens that are in no part of a simple statement. -/
def lineKinds : List TokenKind := partEnds ++ [.indent, .dedent, .endMarker]

/-- A label of tokens that may be in a part of a simple statement. -/
def Inline (g : Grammar) (label : Nat) : Prop :=
  ∀ kind ∈ lineKinds, g.label? label ≠ some (.token kind)

/-- A simple statement is made of parts, each with a semicolon or a line end behind it. Parts hold
no such token and no block, and statements stand in containers. -/
structure Stated (g : Grammar) : Prop where
  holds : ∀ {r sub : RuleTable} {s : Nat} {a : Arc}, r ∈ g.rules → a ∈ r.arcs s →
    g.Enters a sub → sub.name ∈ statementRules → r.name ∈ statementRules
  single : ∀ {r : RuleTable} {s : Nat} {a : Arc}, r ∈ g.rules →
    r.name ∈ ["stmt", "compound_stmt"] → a ∈ r.arcs s → a.label ≠ 0 → s = 0 ∧ a.target = 1
  inline : ∀ {r : RuleTable} {s : Nat} {a : Arc}, r ∈ g.rules → a ∈ r.arcs s →
    r.name ∉ lineRules → g.Inline a.label ∧ ∀ sub, g.Enters a sub → sub.name ∉ lineRules
  ends : ∀ {r : RuleTable} {s : Nat} {a : Arc}, r ∈ g.rules → r.name = "simple_stmt" →
    a ∈ r.arcs s → g.isTerminal a.label = true →
      ∃ kind ∈ partEnds, g.label? a.label = some (.token kind)
  parts : ∀ {r sub : RuleTable} {s : Nat} {a : Arc}, r ∈ g.rules → r.name = "simple_stmt" →
    a ∈ r.arcs s → g.Enters a sub → sub.name ∉ lineRules ∧ a.target = 1
  behind : ∀ {r : RuleTable}, r ∈ g.rules → r.name = "simple_stmt" →
    r.accepts 1 = false ∧ ∀ a ∈ r.arcs 1, g.isTerminal a.label = true
  starts : ∀ {r sub : RuleTable} {s : Nat} {a : Arc}, r ∈ g.rules → r.name = "simple_stmt" →
    a ∈ r.arcs s → g.Enters a sub → ∃ start stmt, g.start? = some start ∧
      (∃ b ∈ start.arcs 0, g.Enters b stmt) ∧ (∃ b ∈ stmt.arcs 0, g.Enters b r) ∧
        ∃ b ∈ r.arcs 0, g.Enters b sub

theorem python_stated : pythonTables.Stated := by
  have statements : ∀ r ∈ pythonTables.rules.toList, ∀ s < r.states.size, ∀ a ∈ r.arcs s,
      (pythonTables.entered? a).any (·.name ∈ statementRules) = true →
        r.name ∈ statementRules := by
    decide +kernel
  have single : ∀ r ∈ pythonTables.rules.toList, ∀ s < r.states.size, ∀ a ∈ r.arcs s,
      r.name ∈ ["stmt", "compound_stmt"] → a.label ≠ 0 → s = 0 ∧ a.target = 1 := by
    decide +kernel
  have inline : ∀ r ∈ pythonTables.rules.toList, ∀ s < r.states.size, ∀ a ∈ r.arcs s,
      r.name ∉ lineRules → (∀ kind ∈ lineKinds, pythonTables.label? a.label ≠ some (.token kind)) ∧
        (pythonTables.entered? a).all (·.name ∉ lineRules) = true := by
    decide +kernel
  have simple : ∀ r ∈ pythonTables.rules.toList, r.name = "simple_stmt" →
      (r.accepts 1 = false ∧ ∀ a ∈ r.arcs 1, pythonTables.isTerminal a.label = true) ∧
      ∀ s < r.states.size, ∀ a ∈ r.arcs s,
        (pythonTables.isTerminal a.label = true →
          ∃ kind ∈ partEnds, pythonTables.label? a.label = some (.token kind)) ∧
        (pythonTables.entered? a).all (fun sub => sub.name ∉ lineRules && a.target == 1) =
          true := by
    decide +kernel
  have starts : ∀ r ∈ pythonTables.rules.toList, r.name = "simple_stmt" →
      ∀ s < r.states.size, ∀ a ∈ r.arcs s, (pythonTables.entered? a).all (fun sub =>
        pythonTables.start?.any fun start => (start.arcs 0).any fun b =>
          (pythonTables.entered? b).any fun stmt =>
            (stmt.arcs 0).any (pythonTables.entered? · == some r) &&
              (r.arcs 0).any (pythonTables.entered? · == some sub)) = true := by
    decide +kernel
  have entered {sub : RuleTable} {a : Arc} {p : RuleTable → Bool}
      (check : (pythonTables.entered? a).all p = true) (h : pythonTables.Enters a sub) :
      p sub = true := by
    rwa [entered?_eq.2 h, Option.all_some] at check
  refine ⟨fun {r sub s a} hr ha hsub name => ?_, fun {r s a} hr name ha label => ?_,
    fun {r s a} hr ha name => ?_, fun {r s a} hr name ha terminal => ?_,
    fun {r sub s a} hr name ha hsub => ?_, fun {r} hr name => ?_,
    fun {r sub s a} hr name ha hsub => ?_⟩
  · refine statements r (Array.mem_toList_iff.2 hr) s (lt_size_of_mem_arcs ha) a ha ?_
    rw [entered?_eq.2 hsub, Option.any_some]
    simpa using name
  · exact single r (Array.mem_toList_iff.2 hr) s (lt_size_of_mem_arcs ha) a ha name label
  · obtain ⟨labels, rules⟩ :=
      inline r (Array.mem_toList_iff.2 hr) s (lt_size_of_mem_arcs ha) a ha name
    exact ⟨labels, fun sub hsub => by simpa using entered rules hsub⟩
  · exact ((simple r (Array.mem_toList_iff.2 hr) name).2 s (lt_size_of_mem_arcs ha) a ha).1 terminal
  · have check := ((simple r (Array.mem_toList_iff.2 hr) name).2 s (lt_size_of_mem_arcs ha) a ha).2
    simpa using entered check hsub
  · exact (simple r (Array.mem_toList_iff.2 hr) name).1
  · have check := entered
      (starts r (Array.mem_toList_iff.2 hr) name s (lt_size_of_mem_arcs ha) a ha) hsub
    simp only [Option.any_eq_true, List.any_eq_true, Bool.and_eq_true, beq_iff_eq] at check
    obtain ⟨start, hstart, b, hb, stmt, entersStmt, ⟨c, hc, entersSimple⟩, d, hd, enters⟩ := check
    exact ⟨start, stmt, hstart, ⟨b, hb, entered?_eq.1 entersStmt⟩,
      ⟨c, hc, entered?_eq.1 entersSimple⟩, d, hd, entered?_eq.1 enters⟩

/-- The rules of parts that may be a single token. -/
def wordRules : List String :=
  ["small_stmt", "del_stmt", "pass_stmt", "flow_stmt", "break_stmt", "continue_stmt", "return_stmt",
    "raise_stmt", "yield_stmt", "yield_expr", "import_stmt", "import_name", "import_from",
    "global_stmt", "nonlocal_stmt", "assert_stmt"]

/-- A part that is a single token is a reserved word: other single tokens stay in a branch. -/
structure Worded (g : Grammar) : Prop where
  enters : ∀ {r sub : RuleTable} {s : Nat} {a : Arc}, r ∈ g.rules → a ∈ r.arcs s →
    g.Enters a sub → r.name = "simple_stmt" ∨ r.name ∈ wordRules ∧ s = 0 →
      sub.name ∈ wordRules ∨ sub.name ∈ Frame.keepsSingleChild
  takes : ∀ {r : RuleTable} {a : Arc}, r ∈ g.rules → r.name ∈ wordRules → a ∈ r.arcs 0 →
    g.isTerminal a.label = true → ∃ k, g.label? a.label = some (.keyword k)

theorem python_worded : pythonTables.Worded := by
  have enters : ∀ r ∈ pythonTables.rules.toList, ∀ s < r.states.size, ∀ a ∈ r.arcs s,
      r.name = "simple_stmt" ∨ r.name ∈ wordRules ∧ s = 0 →
        (pythonTables.entered? a).all (fun sub => wordRules.contains sub.name ||
          Frame.keepsSingleChild.contains sub.name) = true := by
    decide +kernel
  have takes : ∀ r ∈ pythonTables.rules.toList, r.name ∈ wordRules → ∀ a ∈ r.arcs 0,
      pythonTables.isTerminal a.label = true →
        (Keyword.all.any fun k => pythonTables.label? a.label == some (.keyword k)) = true := by
    decide +kernel
  refine ⟨fun {r sub s a} hr ha hsub name => ?_, fun {r a} hr name ha terminal => ?_⟩
  · have check := enters r (Array.mem_toList_iff.2 hr) s (lt_size_of_mem_arcs ha) a ha name
    rw [entered?_eq.2 hsub, Option.all_some] at check
    simpa using check
  · obtain ⟨k, -, label⟩ :=
      List.any_eq_true.1 (takes r (Array.mem_toList_iff.2 hr) name a ha terminal)
    exact ⟨k, by simpa using label⟩

end Grammar

namespace Parser

variable {g : Grammar} {T : List Token} {r : RuleTable} {s i j : Nat} {t root : Tree} {f : Focus}
  {ts us : List Tree} {path : List Crumb} {name : String} {follow : RuleTable → Nat → Prop}

/-! ## Statements and what is around them -/

theorem Enters.label_ne_zero {sub : RuleTable} {a : Arc} (ok : g.Consistent)
    (h : g.Enters a sub) : a.label ≠ 0 := by
  intro zero
  obtain ⟨index, label, -⟩ := h
  rw [zero, ok.empty] at label
  cases label

theorem classify_ne_zero {token : Token} (ok : g.Consistent) : classify g token ≠ some 0 := by
  intro zero
  have terminal := classify_terminal zero
  rw [Grammar.isTerminal, ok.empty] at terminal
  cases terminal

/-- A rule of single rules has no children in its first state, and one in the other. -/
theorem Built.states (ok : g.Consistent) (stated : g.Stated) (h : Built g T r s i j ts)
    (known : r ∈ g.rules) (name : r.name ∈ ["stmt", "compound_stmt"]) :
    (s = 0 ∧ ts = []) ∨ (s = 1 ∧ ts.length = 1) := by
  -- one more child leads from the first state to the other
  have more {r : RuleTable} {s : Nat} {a : Arc} {ts : List Tree} (known : r ∈ g.rules)
      (name : r.name ∈ ["stmt", "compound_stmt"]) (ha : a ∈ r.arcs s) (label : a.label ≠ 0)
      (before : (s = 0 ∧ ts = []) ∨ (s = 1 ∧ ts.length = 1)) (c : Tree) :
      (a.target = 0 ∧ ts ++ [c] = []) ∨ (a.target = 1 ∧ (ts ++ [c]).length = 1) := by
    obtain ⟨first, other⟩ := stated.single known name ha label
    rcases before with ⟨-, empty⟩ | ⟨second, -⟩
    · exact .inr ⟨other, by simp [empty]⟩
    · omega
  induction h with
  | start => exact .inl ⟨rfl, rfl⟩
  | leaf h ha token class_ ih =>
    exact more known name ha (fun zero => classify_ne_zero ok (zero ▸ class_)) (ih known name) _
  | node h ha enters passes inner ends ih ih' =>
    exact more known name ha (Enters.label_ne_zero ok enters) (ih known name) _

theorem Built.single (ok : g.Consistent) (ll : g.Predictive follow) (stated : g.Stated)
    (h : Built g T r s i j ts) (known : r ∈ g.rules) (name : r.name ∈ ["stmt", "compound_stmt"])
    (ends : r.accepts s = true) : ts.length = 1 := by
  rcases h.states ok stated known name with ⟨rfl, -⟩ | ⟨-, one⟩
  · rw [ll.nonempty known] at ends
    cases ends
  · exact one

/-- Every place in a tree that is built is the closed frame of a rule, or a leaf. -/
theorem grown_place (whole : Grown g T f.whole) : Grown g T f.tree := by
  obtain ⟨t, path⟩ := f
  induction path generalizing t with
  | nil => exact whole
  | cons crumb path ih =>
    have above : Grown g T (crumb.fill t) := ih (crumb.fill t) whole
    obtain ⟨r, s, i, j, -, -, built, -⟩ := above _ _ rfl
    exact built.grown t (by simp)

/-- What a statement stands in is a statement. -/
theorem statement_around {crumb : Crumb} (stated : g.Stated) (above : Grown g T (crumb.fill t))
    (branch : t = .branch name us) (statement : name ∈ statementRules) :
    crumb.rule ∈ statementRules := by
  obtain ⟨r, s, i, j, known, title, built, -, -⟩ := above _ _ rfl
  have member : .branch name us ∈ crumb.before.reverse ++ t :: crumb.after := by simp [branch]
  by_contra other
  rw [← title] at other
  refine built.names (P := (· ∉ statementRules)) id (fun hr ha hsub no yes => no ?_) known other
    member statement
  exact stated.holds hr ha hsub yes

/-- A statement that stands in another branch is a container, if a branch stands in it. -/
theorem statement_container {crumb outer : Crumb} (ok : g.Consistent) (ll : g.Predictive follow)
    (closed : g.Sealed) (stated : g.Stated) (above : Grown g T (crumb.fill t))
    (around : Grown g T (outer.fill (crumb.fill t))) (statement : crumb.rule ∈ statementRules) :
    crumb.rule ∈ Module.containers := by
  have kinds : ∀ n ∈ statementRules, n = "file_input" ∨ n ∈ ["stmt", "compound_stmt"] ∨
      n ∈ Module.containers := by decide
  rcases kinds _ statement with source | only | container
  · -- the branch of the start rule is in no other
    obtain ⟨r, s, i, j, known, -, built, -⟩ := around _ _ rfl
    have inside : crumb.fill t ∈ outer.before.reverse ++ crumb.fill t :: outer.after := by simp
    refine absurd source (built.names (P := (· ≠ "file_input")) (Q := fun _ => True)
      (fun _ => trivial) (fun hr ha hsub _ name => ?_) known trivial inside)
    exact closed.outermost hr ha hsub (closed.named hsub.mem name)
  · -- a branch of one child is no such rule's
    obtain ⟨r, s, i, j, known, title, built, ends, several⟩ := above _ _ rfl
    have kept := several (built.single ok ll stated known (title ▸ only) ends)
    simp only [List.mem_cons, List.not_mem_nil, or_false] at only
    rcases only with only | only <;> (rw [only] at kept; exact absurd kept (by decide))
  · exact container

/-- Only containers are around a statement. -/
theorem around_statement (ok : g.Consistent) (ll : g.Predictive follow) (closed : g.Sealed)
    (stated : g.Stated) (whole : Grown g T f.whole) (branch : f.tree = .branch name us)
    (statement : name ∈ statementRules) :
    ∀ crumb ∈ f.path.dropLast, crumb.rule ∈ Module.containers := by
  obtain ⟨t, path⟩ := f
  induction path generalizing t name us with
  | nil => simp
  | cons crumb path ih =>
    have above : Grown g T (crumb.fill t) :=
      grown_place (f := ⟨crumb.fill t, path⟩) whole
    have holds := statement_around stated above branch statement
    cases path with
    | nil => simp
    | cons outer path =>
      have around : Grown g T (outer.fill (crumb.fill t)) :=
        grown_place (f := ⟨outer.fill (crumb.fill t), path⟩) whole
      intro c hc
      rcases List.mem_cons.1 hc with rfl | hc
      · exact statement_container ok ll closed stated above around holds
      · exact ih (t := crumb.fill t) holds whole rfl c hc

/-! ## Parts of a simple statement -/

/-- What a part of a simple statement is built of: the tokens from one number up to another, the
first of which finds the rule of the part entered on the simple statement. -/
structure Part (g : Grammar) (T : List Token) (i j : Nat) (t : Tree) : Prop where
  le : i ≤ j
  leaves : t.leaves = ((T.take j).drop i).map (tokenLeaf g)
  inline : ∀ n, i ≤ n → n < j →
    ∃ u label, T[n]? = some u ∧ classify g u = some label ∧ g.Inline label
  passes : ∃ r sub below s a, r ∈ g.rules ∧ r.name = "simple_stmt" ∧ a ∈ r.arcs s ∧
    g.Enters a sub ∧ Passes g T i ((sub, 0) :: (r, 1) :: below)

/-- The leaf of a token that ends a part is a line end or a semicolon. -/
theorem leafOf_partEnds {token : Token} {label : Nat} {kind : TokenKind}
    (h : kind ∈ Grammar.partEnds) (class_ : classify g token = some label)
    (token_ : g.label? label = some (.token kind)) :
    (leafOf g label token).kind = .newline ∨ (leafOf g label token).kind = .operator .semi := by
  have same : token.kind = kind := by
    rcases classify_label class_ with ⟨k, keyword⟩ | own
    · rw [token_] at keyword
      cases keyword
    · rw [token_] at own
      cases own
      rfl
  simp only [Grammar.partEnds, List.mem_cons, List.not_mem_nil, or_false] at h
  rcases h with rfl | rfl
  · left
    simp [leafOf, same, LeafKind.ofToken]
  · right
    simp [leafOf, same, LeafKind.ofToken]

/-- A child of a simple statement that is no semicolon and no line end is the closed frame of a rule
that was entered on the simple statement. -/
theorem part_frame (stated : g.Stated) (whole : Grown g T f.whole)
    (parent : f.parentTitle? = some "simple_stmt")
    (part : ∀ l, f.tree = .leaf l → l.kind ≠ .newline ∧ l.kind ≠ .operator .semi) :
    ∃ r sub s s' a m n us below, r ∈ g.rules ∧ r.name = "simple_stmt" ∧ a ∈ r.arcs s ∧
      g.Enters a sub ∧ Passes g T m ((sub, 0) :: (r, a.target) :: below) ∧
      Built g T sub s' m n us ∧ f.tree = Frame.close ⟨sub, s', us⟩ := by
  obtain ⟨t, path⟩ := f
  cases path with
  | nil => cases parent
  | cons crumb path =>
    have title : crumb.rule = "simple_stmt" := Option.some.inj parent
    have above : Grown g T (crumb.fill t) := grown_place (f := ⟨crumb.fill t, path⟩) whole
    obtain ⟨r, s, i, j, known, named, built, -, -⟩ := above _ _ rfl
    rw [title] at named
    have member : t ∈ crumb.before.reverse ++ t :: crumb.after := by simp
    rcases built.child member with ⟨s, a, token, ha, class_, leaf⟩ |
      ⟨s, a, sub, s', m, n, us, below, ha, enters, passes, inner, -, closed⟩
    · obtain ⟨kind, hkind, label⟩ := stated.ends known named ha (classify_terminal class_)
      obtain ⟨notLine, notSemi⟩ := part _ leaf
      rcases leafOf_partEnds hkind class_ label with line | semi
      · exact absurd line notLine
      · exact absurd semi notSemi
    · exact ⟨r, sub, s, s', a, m, n, us, below, known, named, ha, enters, passes, inner, closed⟩

/-- A child of a simple statement that is no semicolon and no line end is a part. -/
theorem part_built (stated : g.Stated) (whole : Grown g T f.whole)
    (parent : f.parentTitle? = some "simple_stmt")
    (part : ∀ l, f.tree = .leaf l → l.kind ≠ .newline ∧ l.kind ≠ .operator .semi) :
    ∃ i j, Part g T i j f.tree := by
  obtain ⟨r, sub, s, s', a, m, n, us, below, known, named, ha, enters, passes, inner, closed⟩ :=
    part_frame stated whole parent part
  obtain ⟨name, target⟩ := stated.parts known named ha enters
  obtain ⟨le, leaves⟩ := inner.leaves
  refine ⟨m, n, le, ?_, ?_, r, sub, below, s, a, known, named, ha, enters, ?_⟩
  · rw [closed, Frame.leaves_close, ← leaves]
    rfl
  · exact inner.labels (P := (· ∉ lineRules)) (fun hr ha no _ => (stated.inline hr ha no).1)
      (fun hr ha hsub no => (stated.inline hr ha no).2 _ hsub) enters.mem name
  · rwa [target] at passes

/-- Only containers are around a part. -/
theorem around_part (ok : g.Consistent) (ll : g.Predictive follow) (closed : g.Sealed)
    (stated : g.Stated) (whole : Grown g T f.whole) (root : f.whole = .branch "file_input" ts)
    (parent : f.parentTitle? = some "simple_stmt") :
    f.path ≠ [] ∧ ∀ crumb ∈ f.path.dropLast, crumb.rule ∈ Module.containers := by
  obtain ⟨t, path⟩ := f
  cases path with
  | nil => cases parent
  | cons crumb path =>
    have title : crumb.rule = "simple_stmt" := Option.some.inj parent
    have around := around_statement ok ll closed stated (f := ⟨crumb.fill t, path⟩) whole rfl
      (by rw [title]; decide)
    have under : path ≠ [] := by
      rintro rfl
      have simple : crumb.rule = "file_input" := congrArg Tree.title root
      rw [title] at simple
      exact absurd simple (by decide)
    refine ⟨List.cons_ne_nil _ _, ?_⟩
    rw [List.dropLast_cons_of_ne_nil under, List.forall_mem_cons]
    exact ⟨by rw [title]; decide, around⟩

/-- A part is no container. -/
theorem part_stops (stated : g.Stated) (whole : Grown g T f.whole)
    (parent : f.parentTitle? = some "simple_stmt") :
    f.tree.isLeaf = true ∨ f.tree.title ∉ Module.containers := by
  obtain ⟨t, path⟩ := f
  cases path with
  | nil => cases parent
  | cons crumb path =>
    cases t with
    | leaf l => exact .inl rfl
    | branch name us =>
      right
      have title : crumb.rule = "simple_stmt" := Option.some.inj parent
      have above : Grown g T (crumb.fill (.branch name us)) :=
        grown_place (f := ⟨crumb.fill (.branch name us), path⟩) whole
      obtain ⟨r, s, i, j, known, named, built, -, -⟩ := above _ _ rfl
      rw [title] at named
      have member : .branch name us ∈ crumb.before.reverse ++ .branch name us :: crumb.after := by
        simp
      have inner := built.names (P := (· ∉ lineRules))
        (Q := fun n => n ∉ lineRules ∨ n = "simple_stmt") .inl ?_ known (.inr named) member
      · have holds : ∀ n ∈ Module.containers, n ∈ lineRules := by decide
        exact fun container => inner (holds name container)
      · intro r sub s a hr ha hsub name
        rcases name with no | simple
        · exact (stated.inline hr ha no).2 _ hsub
        · exact (stated.parts hr simple ha hsub).1

theorem close_leaf {l : Leaf} (h : Frame.close ⟨r, s, us⟩ = .leaf l) :
    us = [.leaf l] ∧ r.name ∉ Frame.keepsSingleChild := by
  rcases Frame.close_cases ⟨r, s, us⟩ with ⟨only, single, stays, closed⟩ | ⟨closed, -⟩ <;>
    rw [closed] at h
  · exact ⟨by rw [← h]; exact single, stays⟩
  · cases h

/-- Without children a rule is in its first state. -/
theorem Built.first (h : Built g T r s i j []) : s = 0 := by
  generalize none : [] = ts at h
  cases h with
  | start => rfl
  | leaf => simp at none
  | node => simp at none

/-- A rule that is a single token is a reserved word. -/
theorem Built.word {l : Leaf} (worded : g.Worded) (h : Built g T r s i j ts) (known : r ∈ g.rules)
    (name : r.name ∈ Grammar.wordRules) (only : ts = [.leaf l]) : l.kind = .keyword := by
  induction h with
  | start => cases only
  | @leaf r s i j ts a t h ha token class_ =>
    have only : ts ++ [_] = [] ++ [_] := only
    obtain ⟨rfl, same⟩ := List.append_inj' only rfl
    obtain rfl := h.first
    obtain ⟨k, keyword⟩ := worded.takes known name ha (classify_terminal class_)
    have kind : t.kind = .name := by
      by_contra other
      rw [classify_token class_ other] at keyword
      cases keyword
    obtain rfl : leafOf g a.label t = l := by simpa using same
    simp [leafOf, keyword, kind, LeafKind.ofToken]
  | @node r sub s s' i j k ts children a below h ha enters passes inner ends _ ih =>
    have only : ts ++ [_] = [] ++ [_] := only
    obtain ⟨rfl, same⟩ := List.append_inj' only rfl
    obtain rfl := h.first
    obtain ⟨children, several⟩ := close_leaf (List.singleton_inj.1 same)
    have inside := worded.enters known ha enters (.inr ⟨name, rfl⟩)
    exact ih enters.mem (inside.resolve_right several) children

/-- A part is not titled like a leaf that completion asks for. -/
theorem part_title (stated : g.Stated) (worded : g.Worded)
    (apart : Completion.NamesApart g) (whole : Grown g T f.whole)
    (parent : f.parentTitle? = some "simple_stmt")
    (part : ∀ l, f.tree = .leaf l → l.kind ≠ .newline ∧ l.kind ≠ .operator .semi) :
    f.tree.title ∉ ["indent", "dedent", "error_leaf", "string"] := by
  cases tree : f.tree with
  | branch name us =>
    obtain ⟨r, s, i, j, known, rfl, -⟩ := grown_place whole name us tree
    exact apart r known
  | leaf l =>
    obtain ⟨r, sub, s, s', a, m, n, us, below, known, named, ha, enters, -, inner, closed⟩ :=
      part_frame stated whole parent part
    obtain ⟨only, several⟩ := close_leaf (closed.symm.trans tree)
    have inside := worded.enters known ha enters (.inl named)
    have word := inner.word worded enters.mem (inside.resolve_right several) only
    rw [Tree.title, word]
    decide

end Parser

end Caret

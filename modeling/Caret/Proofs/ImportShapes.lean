import Caret.Completion.Imports
import Caret.Proofs.PythonPrediction
import Caret.Proofs.Spelling
/-!
# The shapes of imports

What the Python grammar makes of the rules of imports, finished or not. Recovery stops in none of
them, so the tables alone say how their children look.

Results:
* `python_secluded`: recovery stops at no rule of an import.
* `Path`: a dotted name; a single name stands for itself.
* `Bound`: a name or path, alone or with `as` and another name.
* `FromShape`: the children of a `from` statement, state by state.
* `traced_dotted`, `traced_bound`, `traced_listed`, `traced_from`, `traced_import`: the children of
  each rule have its shape.
* `unfinished_from`: the frames of a `from` statement that was set aside.
-/
namespace Caret

/-! ## What is read on an arc -/

/-- What an arc reads. -/
inductive Step
  | word (k : Keyword)
  | token (kind : TokenKind)
  /-- A rule, by its name. -/
  | rule (name : String)
  /-- The rule may end. -/
  | nothing
  deriving DecidableEq, Repr

namespace Grammar

/-- What the arc reads. -/
def step? (g : Grammar) (a : Arc) : Option Step :=
  match g.label? a.label with
  | some (.keyword k) => some (.word k)
  | some (.token kind) => some (.token kind)
  | some (.rule j) => (g.rule? j).map (.rule ·.name)
  | some .empty => some .nothing
  | none => none

/-- What the arcs out of each state read, and where they lead. -/
def outline (g : Grammar) (r : RuleTable) : List (List (Option Step × Nat)) :=
  r.states.toList.map fun arcs => arcs.map fun a => (g.step? a, a.target)

/-- The rules of imports. -/
def importParts : List String :=
  ["import_name", "import_from", "import_as_name", "dotted_as_name", "import_as_names",
    "dotted_as_names", "dotted_name"]

variable {g : Grammar} {r sub : RuleTable} {s : Nat} {a : Arc}

theorem mem_outline (ha : a ∈ r.arcs s) :
    ∃ steps, (g.outline r)[s]? = some steps ∧ (g.step? a, a.target) ∈ steps := by
  have inside := lt_size_of_mem_arcs ha
  rw [RuleTable.arcs, Array.getElem?_eq_getElem inside] at ha
  refine ⟨_, by rw [outline, List.getElem?_map, Array.getElem?_toList,
    Array.getElem?_eq_getElem inside]; rfl, List.mem_map.2 ⟨a, ha, rfl⟩⟩

theorem Enters.step (h : g.Enters a sub) : g.step? a = some (.rule sub.name) := by
  obtain ⟨j, label, rule⟩ := h
  simp [step?, label, rule]

/-- Where a rule may end, an arc reads nothing. -/
theorem outline_of_accepts (ok : g.Consistent) (h : r.accepts s = true) :
    ∃ steps target, (g.outline r)[s]? = some steps ∧ (some .nothing, target) ∈ steps := by
  obtain ⟨a, ha, zero⟩ := List.any_eq_true.1 h
  obtain ⟨steps, found, mem⟩ := mem_outline (g := g) ha
  rw [beq_iff_eq] at zero
  refine ⟨steps, a.target, found, ?_⟩
  rwa [step?, zero, ok.empty] at mem

end Grammar

namespace Leaf

/-- The leaf is this reserved word. -/
def IsWord (k : Keyword) (l : Leaf) : Prop := l.kind = .keyword ∧ l.value = k.spelling.toList

/-- The leaf is this operator. -/
def IsOperator (o : Operator) (l : Leaf) : Prop :=
  l.kind = .operator o ∧ l.value = o.spelling.toList

/-- The leaf is a dot, or three of them. -/
def IsDots (l : Leaf) : Prop := l.IsOperator .dot ∨ l.IsOperator .ellipsis

end Leaf

namespace Parser

/-- A leaf is what the arc reads. -/
theorem Labels.step {g : Grammar} {source : Text} {a : Arc} {l : Leaf}
    (h : Labels g (tokenize source) a.label l) :
    (∃ k, g.step? a = some (.word k) ∧ l.IsWord k) ∨
      ∃ kind, g.step? a = some (.token kind) ∧ l.kind = .ofToken false kind ∧
        ∀ o, kind = .op o → l.IsOperator o := by
  have own := h
  obtain ⟨t, -, class_, rfl⟩ := h
  rcases classify_label class_ with ⟨k, label⟩ | label
  · exact .inl ⟨k, by rw [Grammar.step?, label], own.keyword label⟩
  · refine .inr ⟨t.kind, by rw [Grammar.step?, label], (own.token label).1, ?_⟩
    rintro o kind
    rw [kind] at label
    exact own.operator label

end Parser

/-! ## Shapes -/

namespace Import

/-- Names with dots between them. -/
def names (first : Leaf) (rest : List (Leaf × Leaf)) : List Tree :=
  .leaf first :: rest.flatMap fun (dot, name) => [.leaf dot, .leaf name]

/-- They are names and dots indeed. -/
def Dotted (first : Leaf) (rest : List (Leaf × Leaf)) : Prop :=
  first.kind = .name ∧ ∀ p ∈ rest, p.1.IsOperator .dot ∧ p.2.kind = .name

/-- The children of a dotted name, by the state that they lead to. -/
inductive DottedShape : Nat → List Tree → Prop
  | start : DottedShape 0 []
  | names {first : Leaf} {rest : List (Leaf × Leaf)} (h : Dotted first rest) :
      DottedShape 1 (names first rest)
  | dot {first dot : Leaf} {rest : List (Leaf × Leaf)} (h : Dotted first rest)
      (hd : dot.IsOperator .dot) : DottedShape 0 (names first rest ++ [.leaf dot])

/-- A dotted name. A name without dots stands for itself. -/
inductive Path : Tree → Prop
  | single {l : Leaf} (h : l.kind = .name) : Path (.leaf l)
  | several {first : Leaf} {rest : List (Leaf × Leaf)} (h : Dotted first rest) :
      Path (.branch "dotted_name" (names first rest))

/-- What an import binds: alone, or by another name that stands behind `as`. -/
inductive Bound (rule : String) (First : Tree → Prop) : Tree → Prop
  | plain {t : Tree} (h : First t) : Bound rule First t
  | renamed {t : Tree} {as name : Leaf} (h : First t) (word : as.IsWord .kwAs)
      (other : name.kind = .name) : Bound rule First (.branch rule [t, .leaf as, .leaf name])

/-- The children of what an import binds, by the state that they lead to. -/
inductive BoundShape (First : Tree → Prop) : Nat → List Tree → Prop
  | start : BoundShape First 0 []
  | first {t : Tree} (h : First t) : BoundShape First 1 [t]
  | word {t : Tree} {as : Leaf} (h : First t) (hw : as.IsWord .kwAs) :
      BoundShape First 2 [t, .leaf as]
  | renamed {t : Tree} {as name : Leaf} (h : First t) (hw : as.IsWord .kwAs)
      (other : name.kind = .name) : BoundShape First 3 [t, .leaf as, .leaf name]

/-- Items with commas between them; the flag says that the last one is an item. -/
inductive Listed (Item : Tree → Prop) : Bool → List Tree → Prop
  | nil : Listed Item false []
  | item {us : List Tree} {t : Tree} (h : Listed Item false us) (ht : Item t) :
      Listed Item true (us ++ [t])
  | comma {us : List Tree} {c : Leaf} (h : Listed Item true us) (hc : c.IsOperator .comma) :
      Listed Item false (us ++ [.leaf c])

/-- A list of items. A single one stands for itself. -/
inductive Series (rule : String) (Item : Tree → Prop) : Tree → Prop
  | single {t : Tree} (h : Item t) : Series rule Item t
  | several {last : Bool} {us : List Tree} (h : Listed Item last us) :
      Series rule Item (.branch rule us)

/-- A name. -/
def Name (t : Tree) : Prop := ∃ l, t = .leaf l ∧ l.kind = .name

/-- The names behind `from … import`. -/
def Imports : Tree → Prop := Series "import_as_names" (Bound "import_as_name" Name)

/-- The paths behind `import`. -/
def Paths : Tree → Prop := Series "dotted_as_names" (Bound "dotted_as_name" Path)

/-- The start of a `from` statement: dots, and a path if there is one. -/
structure Front where
  word : Leaf
  dots : List Leaf
  path : Option Tree

namespace Front

def trees (f : Front) : List Tree := .leaf f.word :: (f.dots.map .leaf ++ f.path.toList)

structure Valid (f : Front) : Prop where
  word : f.word.IsWord .kwFrom
  dots : ∀ d ∈ f.dots, d.IsDots
  path : ∀ t ∈ f.path, Path t

end Front

/-- What follows the word `import` of a `from` statement, by the state that it leads to. -/
inductive Behind : Nat → List Tree → Prop
  | nothing : Behind 4 []
  | star {o : Leaf} (h : o.IsOperator .star) : Behind 6 [.leaf o]
  | names {t : Tree} (h : Imports t) : Behind 6 [t]
  | opened {o : Leaf} (h : o.IsOperator .lPar) : Behind 5 [.leaf o]
  | inside {o : Leaf} {t : Tree} (h : o.IsOperator .lPar) (ht : Imports t) : Behind 7 [.leaf o, t]
  | closed {o c : Leaf} {t : Tree} (h : o.IsOperator .lPar) (ht : Imports t)
      (hc : c.IsOperator .rPar) : Behind 6 [.leaf o, t, .leaf c]

/-- The children of a `from` statement, by the state that they lead to. -/
inductive FromShape : Nat → List Tree → Prop
  | start : FromShape 0 []
  | dots {s : Nat} {f : Front} (state : s = 1 ∨ s = 2) (h : f.Valid) (none : f.path = none) :
      FromShape s f.trees
  | path {f : Front} (h : f.Valid) (some : f.path ≠ none) : FromShape 3 f.trees
  | behind {s : Nat} {f : Front} {word : Leaf} {us : List Tree} (h : f.Valid)
      (hw : word.IsWord .kwImport) (more : Behind s us) :
      FromShape s (f.trees ++ .leaf word :: us)

/-- The children of an `import` statement, by the state that they lead to. -/
inductive ImportShape : Nat → List Tree → Prop
  | start : ImportShape 0 []
  | word {l : Leaf} (h : l.IsWord .kwImport) : ImportShape 1 [.leaf l]
  | paths {l : Leaf} {t : Tree} (h : l.IsWord .kwImport) (ht : Paths t) :
      ImportShape 2 [.leaf l, t]

end Import

/-! ## The tables -/

namespace Grammar

/-- Recovery stops at no rule of an import, and these rules enter no others. -/
theorem python_secluded : pythonTables.Secluded importParts := by
  have closed : ∀ r ∈ pythonTables.rules.toList, r.name ∈ importParts →
      ∀ s < r.states.size, ∀ a ∈ r.arcs s,
        (pythonTables.entered? a).all (·.name ∈ importParts) = true := by
    decide +kernel
  refine ⟨fun {r sub s a} hr name ha enters => ?_, by decide⟩
  have check := closed r (Array.mem_toList_iff.2 hr) name s (lt_size_of_mem_arcs ha) a ha
  rw [entered?_eq.2 enters, Option.all_some] at check
  exact of_decide_eq_true check

/-- The rules of imports. -/
def importOutline (rule : String) : List (List (Option Step × Nat)) :=
  if rule = "dotted_name" then
    [[(some (.token .name), 1)], [(some (.token (.op .dot)), 0), (some .nothing, 1)]]
  else if rule = "import_as_name" then
    [[(some (.token .name), 1)], [(some (.word .kwAs), 2), (some .nothing, 1)],
      [(some (.token .name), 3)], [(some .nothing, 3)]]
  else if rule = "dotted_as_name" then
    [[(some (.rule "dotted_name"), 1)], [(some (.word .kwAs), 2), (some .nothing, 1)],
      [(some (.token .name), 3)], [(some .nothing, 3)]]
  else if rule = "import_as_names" then
    [[(some (.rule "import_as_name"), 1)],
      [(some (.token (.op .comma)), 2), (some .nothing, 1)],
      [(some (.rule "import_as_name"), 1), (some .nothing, 2)]]
  else if rule = "dotted_as_names" then
    [[(some (.rule "dotted_as_name"), 1)],
      [(some (.token (.op .comma)), 0), (some .nothing, 1)]]
  else if rule = "import_name" then
    [[(some (.word .kwImport), 1)], [(some (.rule "dotted_as_names"), 2)], [(some .nothing, 2)]]
  else if rule = "import_from" then
    [[(some (.word .kwFrom), 1)],
      [(some (.token (.op .dot)), 2), (some (.token (.op .ellipsis)), 2),
        (some (.rule "dotted_name"), 3)],
      [(some (.token (.op .dot)), 2), (some (.token (.op .ellipsis)), 2),
        (some (.word .kwImport), 4), (some (.rule "dotted_name"), 3)],
      [(some (.word .kwImport), 4)],
      [(some (.token (.op .lPar)), 5), (some (.token (.op .star)), 6),
        (some (.rule "import_as_names"), 6)],
      [(some (.rule "import_as_names"), 7)],
      [(some .nothing, 6)],
      [(some (.token (.op .rPar)), 6)]]
  else []

/-- What the arcs out of a state of such a rule read, and where they lead. -/
def importSteps (rule : String) (s : Nat) : List (Option Step × Nat) :=
  ((importOutline rule)[s]?).getD []

theorem python_outline {r : RuleTable} (hr : r ∈ pythonTables.rules)
    (name : r.name ∈ importParts) : pythonTables.outline r = importOutline r.name := by
  have all : ∀ r ∈ pythonTables.rules.toList, r.name ∈ importParts →
      pythonTables.outline r = importOutline r.name := by
    decide +kernel
  exact all r (Array.mem_toList_iff.2 hr) name

theorem mem_importSteps {r : RuleTable} {s : Nat} {a : Arc} (hr : r ∈ pythonTables.rules)
    (name : r.name ∈ importParts) (ha : a ∈ r.arcs s) :
    (pythonTables.step? a, a.target) ∈ importSteps r.name s := by
  obtain ⟨steps, found, mem⟩ := mem_outline (g := pythonTables) ha
  rw [python_outline hr name] at found
  rwa [importSteps, found]

theorem importSteps_of_accepts {r : RuleTable} {s : Nat} (hr : r ∈ pythonTables.rules)
    (name : r.name ∈ importParts) (h : r.accepts s = true) :
    ∃ target, (some .nothing, target) ∈ importSteps r.name s := by
  obtain ⟨steps, target, found, mem⟩ := outline_of_accepts python_consistent h
  rw [python_outline hr name] at found
  exact ⟨target, by rwa [importSteps, found]⟩

end Grammar

namespace Import

open Grammar

variable {source : Text} {r sub : RuleTable} {s : Nat} {us : List Tree}

/-- What holds of the children of such a rule, by the state that they lead to, holds at the start
and is kept by each arc. -/
theorem traced_keeps (P : Nat → List Tree → Prop) (hr : r ∈ pythonTables.rules)
    (name : r.name ∈ importParts) (start : P 0 [])
    (word : ∀ {s us k l target}, P s us → (some (.word k), target) ∈ importSteps r.name s →
      l.IsWord k → P target (us ++ [.leaf l]))
    (token : ∀ {s us kind target} {l : Leaf}, P s us →
      (some (.token kind), target) ∈ importSteps r.name s → l.kind = .ofToken false kind →
      (∀ o, kind = .op o → l.IsOperator o) → P target (us ++ [.leaf l]))
    (rule : ∀ {s us sub s' vs target}, P s us →
      (some (.rule sub.name), target) ∈ importSteps r.name s → sub ∈ pythonTables.rules →
      Parser.Traced pythonTables (tokenize source) sub s' vs → sub.accepts s' = true →
      P target (us ++ [Frame.close ⟨sub, s', vs⟩]))
    (h : Parser.Traced pythonTables (tokenize source) r s us) : P s us := by
  induction h with
  | start => exact start
  | @leaf r s us a l _ ha label ih =>
    have mem := mem_importSteps hr name ha
    have before := ih hr name word token rule
    rcases label.step with ⟨k, step, own⟩ | ⟨kind, step, own, operator⟩ <;> rw [step] at mem
    · exact word before mem own
    · exact token before mem own operator
  | @node r sub s s' us vs a _ ha enters inner ends ih =>
    have mem := mem_importSteps hr name ha
    rw [enters.step] at mem
    exact rule (ih hr name word token rule) mem enters.mem inner ends

theorem names_concat (first : Leaf) (rest : List (Leaf × Leaf)) (dot name : Leaf) :
    names first rest ++ [.leaf dot] ++ [.leaf name] = names first (rest ++ [(dot, name)]) := by
  simp [names]

/-- The children of a dotted name. -/
theorem traced_dotted (hr : r ∈ pythonTables.rules) (name : r.name = "dotted_name")
    (h : Parser.Traced pythonTables (tokenize source) r s us) : DottedShape s us := by
  refine traced_keeps DottedShape hr (by simp [name, importParts]) .start
    (fun {s us k l target} _ mem _ => ?_) (fun {s us kind target l} before mem own operator => ?_)
    (fun {s us sub s' vs target} _ mem _ _ _ => ?_) h <;> rw [name] at mem
  · rcases s with _ | _ | s <;> simp [importSteps, importOutline] at mem
  · rcases s with _ | _ | s <;> simp [importSteps, importOutline] at mem
    · obtain ⟨rfl, rfl⟩ := mem
      cases before with
      | start =>
        have single : Dotted l [] := ⟨own, by simp⟩
        exact .names single
      | @dot first dot rest dotted isDot =>
        rw [names_concat]
        refine .names ⟨dotted.1, fun p hp => ?_⟩
        rcases List.mem_append.1 hp with hp | hp
        · exact dotted.2 p hp
        · rw [List.mem_singleton.1 hp]
          exact ⟨isDot, own⟩
    · obtain ⟨rfl, rfl⟩ := mem
      cases before with
      | names dotted => exact .dot dotted (operator _ rfl)
  · rcases s with _ | _ | s <;> simp [importSteps, importOutline] at mem

/-- A closed frame of such a rule is its only child. -/
theorem close_single (name : r.name ∈ importParts) (s : Nat) (t : Tree) :
    Frame.close ⟨r, s, [t]⟩ = t := by
  have kept : Frame.keepsSingleChild.contains r.name = false := by
    simp only [importParts, List.mem_cons, List.not_mem_nil, or_false] at name
    rcases name with h | h | h | h | h | h | h <;> rw [h] <;> rfl
  exact Frame.close_only kept

/-- With another number of children it is a branch. -/
theorem close_several (r : RuleTable) (s : Nat) (several : ∀ only, us ≠ [only]) :
    Frame.close ⟨r, s, us⟩ = .branch r.name us := by
  rcases Frame.close_cases ⟨r, s, us⟩ with ⟨only, single, -⟩ | ⟨closed, -⟩
  · exact absurd single (several only)
  · exact closed

theorem closed_dotted (hr : r ∈ pythonTables.rules) (name : r.name = "dotted_name")
    (h : Parser.Traced pythonTables (tokenize source) r s us) (ends : r.accepts s = true) :
    Path (Frame.close ⟨r, s, us⟩) := by
  have inside : r.name ∈ importParts := by simp [name, importParts]
  obtain ⟨target, mem⟩ := importSteps_of_accepts hr inside ends
  rw [name] at mem
  have shape := traced_dotted hr name h
  rcases s with _ | _ | s <;> simp [importSteps, importOutline] at mem
  cases shape with
  | @names first rest dotted =>
    cases rest with
    | nil =>
      rw [names, List.flatMap_nil, close_single inside]
      exact .single dotted.1
    | cons =>
      rw [close_several r _ (by simp [names]), name]
      exact .several dotted

/-- The children of what an import binds. -/
theorem traced_bound {First : Tree → Prop} (hr : r ∈ pythonTables.rules)
    (name : r.name = "import_as_name" ∧ First = Name ∨ r.name = "dotted_as_name" ∧ First = Path)
    (h : Parser.Traced pythonTables (tokenize source) r s us) : BoundShape First s us := by
  refine traced_keeps (BoundShape First) hr ?_ .start
    (fun {s us k l target} before mem own => ?_) (fun {s us kind target l} before mem own _ => ?_)
    (fun {s us sub s' vs target} before mem hsub inner ends => ?_) h <;>
    rcases name with ⟨name, rfl⟩ | ⟨name, rfl⟩
  · simp [name, importParts]
  · simp [name, importParts]
  all_goals
    rw [name] at mem
    rcases s with _ | _ | _ | _ | s <;> simp [importSteps, importOutline] at mem
  · obtain ⟨rfl, rfl⟩ := mem
    cases before with
    | first before => exact .word before own
  · obtain ⟨rfl, rfl⟩ := mem
    cases before with
    | first before => exact .word before own
  · obtain ⟨rfl, rfl⟩ := mem
    cases before with
    | start => exact .first ⟨l, rfl, own⟩
  · obtain ⟨rfl, rfl⟩ := mem
    cases before with
    | word before hw => exact .renamed before hw own
  · obtain ⟨rfl, rfl⟩ := mem
    cases before with
    | word before hw => exact .renamed before hw own
  · obtain ⟨named, rfl⟩ := mem
    cases before with
    | start => exact .first (closed_dotted hsub named inner ends)

theorem closed_bound {First : Tree → Prop} (hr : r ∈ pythonTables.rules)
    (name : r.name = "import_as_name" ∧ First = Name ∨ r.name = "dotted_as_name" ∧ First = Path)
    (h : Parser.Traced pythonTables (tokenize source) r s us) (ends : r.accepts s = true) :
    Bound r.name First (Frame.close ⟨r, s, us⟩) := by
  have inside : r.name ∈ importParts := by
    rcases name with ⟨name, -⟩ | ⟨name, -⟩ <;> simp [name, importParts]
  obtain ⟨target, mem⟩ := importSteps_of_accepts hr inside ends
  have state : s = 1 ∨ s = 3 := by
    rcases name with ⟨name, -⟩ | ⟨name, -⟩ <;> rw [name] at mem <;>
      rcases s with _ | _ | _ | _ | s <;> simp [importSteps, importOutline] at mem ⊢
  cases traced_bound hr name h with
  | start => omega
  | word => omega
  | first first =>
    rw [close_single inside]
    exact .plain first
  | renamed first hw other =>
    rw [close_several r _ (by simp)]
    exact .renamed first hw other

/-- The children of a list of names or paths. -/
theorem traced_listed {Item : Tree → Prop} (hr : r ∈ pythonTables.rules)
    (name : r.name = "import_as_names" ∧ Item = Bound "import_as_name" Name ∨
      r.name = "dotted_as_names" ∧ Item = Bound "dotted_as_name" Path)
    (h : Parser.Traced pythonTables (tokenize source) r s us) : Listed Item (s == 1) us := by
  refine traced_keeps (fun s us => Listed Item (s == 1) us) hr ?_ .nil
    (fun {s us k l target} before mem own => ?_)
    (fun {s us kind target l} before mem _ operator => ?_)
    (fun {s us sub s' vs target} before mem hsub inner ends => ?_) h <;>
    rcases name with ⟨name, rfl⟩ | ⟨name, rfl⟩
  · simp [name, importParts]
  · simp [name, importParts]
  all_goals
    rw [name] at mem
    rcases s with _ | _ | _ | s <;> simp [importSteps, importOutline] at mem
  · obtain ⟨rfl, rfl⟩ := mem
    exact .comma before (operator _ rfl)
  · obtain ⟨rfl, rfl⟩ := mem
    exact .comma before (operator _ rfl)
  · obtain ⟨named, rfl⟩ := mem
    exact .item before (named ▸ closed_bound hsub (.inl ⟨named, rfl⟩) inner ends)
  · obtain ⟨named, rfl⟩ := mem
    exact .item before (named ▸ closed_bound hsub (.inl ⟨named, rfl⟩) inner ends)
  · obtain ⟨named, rfl⟩ := mem
    exact .item before (named ▸ closed_bound hsub (.inr ⟨named, rfl⟩) inner ends)

theorem Listed.single {Item : Tree → Prop} {last : Bool} {t : Tree}
    (h : Listed Item last [t]) : Item t := by
  generalize only : [t] = us at h
  cases h with
  | nil => cases only
  | @item us t' h ht =>
    have same := congrArg List.getLast? only
    rw [List.getLast?_concat] at same
    cases same
    exact ht
  | @comma us c h hc =>
    have short := congrArg List.length only
    simp at short
    subst short
    generalize empty : ([] : List Tree) = vs at h
    generalize item : true = b at h
    cases h with
    | nil => cases item
    | item => simp at empty
    | comma => cases item

theorem closed_series {Item : Tree → Prop} (hr : r ∈ pythonTables.rules)
    (name : r.name = "import_as_names" ∧ Item = Bound "import_as_name" Name ∨
      r.name = "dotted_as_names" ∧ Item = Bound "dotted_as_name" Path)
    (h : Parser.Traced pythonTables (tokenize source) r s us) :
    Series r.name Item (Frame.close ⟨r, s, us⟩) := by
  have inside : r.name ∈ importParts := by
    rcases name with ⟨name, -⟩ | ⟨name, -⟩ <;> simp [name, importParts]
  have shape := traced_listed hr name h
  by_cases single : ∃ only, us = [only]
  · obtain ⟨only, rfl⟩ := single
    rw [close_single inside]
    exact .single shape.single
  · rw [close_several r s fun only h => single ⟨only, h⟩]
    exact .several shape

theorem closed_imports (hr : r ∈ pythonTables.rules) (name : r.name = "import_as_names")
    (h : Parser.Traced pythonTables (tokenize source) r s us) :
    Imports (Frame.close ⟨r, s, us⟩) := by
  have closed := closed_series hr (.inl ⟨name, rfl⟩) h
  rwa [name] at closed

theorem closed_paths (hr : r ∈ pythonTables.rules) (name : r.name = "dotted_as_names")
    (h : Parser.Traced pythonTables (tokenize source) r s us) :
    Paths (Frame.close ⟨r, s, us⟩) := by
  have closed := closed_series hr (.inr ⟨name, rfl⟩) h
  rwa [name] at closed

/-- Dots come before the path. -/
theorem FromShape.dot {f : Front} {d : Leaf} (h : f.Valid) (none : f.path = none)
    (hd : d.IsDots) : FromShape 2 (f.trees ++ [.leaf d]) := by
  have more : f.trees ++ [.leaf d] = Front.trees ⟨f.word, f.dots ++ [d], f.path⟩ := by
    simp [Front.trees, none]
  rw [more]
  refine .dots (.inr rfl) ⟨h.word, fun d' hd' => ?_, h.path⟩ none
  rcases List.mem_append.1 hd' with hd' | hd'
  · exact h.dots d' hd'
  · rwa [List.mem_singleton.1 hd']

theorem FromShape.named {f : Front} {t : Tree} (h : f.Valid) (none : f.path = none)
    (ht : Path t) : FromShape 3 (f.trees ++ [t]) := by
  have more : f.trees ++ [t] = Front.trees ⟨f.word, f.dots, some t⟩ := by
    simp [Front.trees, none]
  rw [more]
  refine .path ⟨h.word, h.dots, fun t' ht' => ?_⟩ (by simp)
  cases ht'
  exact ht

theorem FromShape.more {f : Front} {word : Leaf} {us : List Tree} {t : Tree} (h : f.Valid)
    (hw : word.IsWord .kwImport) (more : Behind s (us ++ [t])) :
    FromShape s (f.trees ++ .leaf word :: us ++ [t]) := by
  rw [List.append_assoc, List.cons_append]
  exact .behind h hw more

/-- The children of a `from` statement. -/
theorem traced_from (hr : r ∈ pythonTables.rules) (name : r.name = "import_from")
    (h : Parser.Traced pythonTables (tokenize source) r s us) : FromShape s us := by
  refine traced_keeps FromShape hr (by simp [name, importParts]) .start
    (fun {s us k l target} before mem own => ?_)
    (fun {s us kind target l} before mem _ operator => ?_)
    (fun {s us sub s' vs target} before mem hsub inner ends => ?_) h <;> rw [name] at mem
  all_goals
    rcases s with _ | _ | _ | _ | _ | _ | _ | _ | s <;>
      simp [importSteps, importOutline] at mem
  · -- `from`
    obtain ⟨rfl, rfl⟩ := mem
    cases before with
    | start =>
      have front : Front.Valid ⟨l, [], none⟩ := ⟨own, by simp, by simp⟩
      exact .dots (.inl rfl) front rfl
    | dots state => omega
    | behind _ _ more => cases more
  · -- `import` behind dots
    obtain ⟨rfl, rfl⟩ := mem
    cases before with
    | dots _ front => exact .behind front own .nothing
    | behind _ _ more => cases more
  · -- `import` behind a path
    obtain ⟨rfl, rfl⟩ := mem
    cases before with
    | dots state => omega
    | path front => exact .behind front own .nothing
    | behind _ _ more => cases more
  · -- the first dots
    rcases mem with ⟨rfl, rfl⟩ | ⟨rfl, rfl⟩ <;> cases before with
    | dots _ front none => exact .dot front none (by simp [Leaf.IsDots, operator _ rfl])
    | behind _ _ more => cases more
  · -- more dots
    rcases mem with ⟨rfl, rfl⟩ | ⟨rfl, rfl⟩ <;> cases before with
    | dots _ front none => exact .dot front none (by simp [Leaf.IsDots, operator _ rfl])
    | behind _ _ more => cases more
  · -- `(` or `*` behind `import`
    cases before with
    | dots state => omega
    | behind front hw more =>
      cases more
      rcases mem with ⟨rfl, rfl⟩ | ⟨rfl, rfl⟩
      · exact .more front hw (.opened (operator _ rfl))
      · exact .more front hw (.star (operator _ rfl))
  · -- `)`
    obtain ⟨rfl, rfl⟩ := mem
    cases before with
    | dots state => omega
    | behind front hw more =>
      cases more with
      | inside ho ht => exact .more front hw (.closed ho ht (operator _ rfl))
  · -- a path behind `from`
    obtain ⟨named, rfl⟩ := mem
    cases before with
    | dots _ front none => exact .named front none (closed_dotted hsub named inner ends)
    | behind _ _ more => cases more
  · -- a path behind dots
    obtain ⟨named, rfl⟩ := mem
    cases before with
    | dots _ front none => exact .named front none (closed_dotted hsub named inner ends)
    | behind _ _ more => cases more
  · -- names behind `import`
    obtain ⟨named, rfl⟩ := mem
    cases before with
    | dots state => omega
    | behind front hw more =>
      cases more
      exact .more front hw (.names (closed_imports hsub named inner))
  · -- names in parentheses
    obtain ⟨named, rfl⟩ := mem
    cases before with
    | dots state => omega
    | behind front hw more =>
      cases more with
      | opened ho => exact .more front hw (.inside ho (closed_imports hsub named inner))

/-- The children of an `import` statement. -/
theorem traced_import (hr : r ∈ pythonTables.rules) (name : r.name = "import_name")
    (h : Parser.Traced pythonTables (tokenize source) r s us) : ImportShape s us := by
  refine traced_keeps ImportShape hr (by simp [name, importParts]) .start
    (fun {s us k l target} before mem own => ?_)
    (fun {s us kind target l} before mem _ operator => ?_)
    (fun {s us sub s' vs target} before mem hsub inner ends => ?_) h <;> rw [name] at mem
  all_goals
    rcases s with _ | _ | _ | s <;> simp [importSteps, importOutline] at mem
  · obtain ⟨rfl, rfl⟩ := mem
    cases before with
    | start => exact .word own
  · obtain ⟨named, rfl⟩ := mem
    cases before with
    | word hw => exact .paths hw (closed_paths hsub named inner)

/-! ## Statements that were set aside -/

/-- The frames of a `from` statement that was set aside: it alone, with a path that is being read,
or with names that are being read. -/
inductive BrokenFrom : List (String × List Tree) → Prop
  | alone {s : Nat} {us : List Tree} (h : FromShape s us) (goesOn : s ≠ 6) :
      BrokenFrom [("import_from", us)]
  | path {s : Nat} {f : Front} {vs : List Tree} (h : f.Valid) (none : f.path = none)
      (hv : DottedShape s vs) : BrokenFrom [("import_from", f.trees), ("dotted_name", vs)]
  | names {f : Front} {word : Leaf} {us : List Tree} {frames : List (String × List Tree)}
      (h : f.Valid) (hw : word.IsWord .kwImport)
      (opened : us = [] ∨ ∃ o : Leaf, us = [.leaf o] ∧ o.IsOperator .lPar)
      (inner : ∀ fr ∈ frames, fr.1 ∈ ["import_as_names", "import_as_name"]) :
      BrokenFrom (("import_from", f.trees ++ .leaf word :: us) :: frames)

theorem mem_importSteps_of_enters {a : Arc} (hr : r ∈ pythonTables.rules)
    (name : r.name ∈ importParts) (ha : a ∈ r.arcs s) (enters : pythonTables.Enters a sub) :
    (some (.rule sub.name), a.target) ∈ importSteps r.name s := by
  have mem := mem_importSteps hr name ha
  rwa [enters.step] at mem

/-- Frames that were entered for names are those of names. -/
theorem unfinished_names {frames : List (String × List Tree)}
    (h : Parser.Unfinished pythonTables (tokenize source) r frames)
    (name : r.name ∈ ["import_as_names", "import_as_name"]) :
    ∀ fr ∈ frames, fr.1 ∈ ["import_as_names", "import_as_name"] := by
  induction h with
  | last => simpa using name
  | @enter r sub s us a frames known _ ha enters _ ih =>
    have inner : sub.name ∈ ["import_as_names", "import_as_name"] := by
      simp only [List.mem_cons, List.not_mem_nil, or_false] at name
      rcases name with name | name <;>
        have mem := mem_importSteps_of_enters known (by simp [name, importParts]) ha enters <;>
        rw [name] at mem <;>
        rcases s with _ | _ | _ | _ | s <;> simp [importSteps, importOutline] at mem <;>
        simp [mem.1]
    intro fr hf
    rcases List.mem_cons.1 hf with rfl | hf
    · exact name
    · exact ih inner fr hf

/-- A path that is being read enters no other rule. -/
theorem unfinished_dotted {frames : List (String × List Tree)}
    (h : Parser.Unfinished pythonTables (tokenize source) r frames)
    (name : r.name = "dotted_name") :
    ∃ s vs, frames = [("dotted_name", vs)] ∧ DottedShape s vs := by
  cases h with
  | last known traced => exact ⟨_, _, by rw [name], traced_dotted known name traced⟩
  | @enter _ sub s us a frames known traced ha enters =>
    have mem := mem_importSteps_of_enters known (by simp [name, importParts]) ha enters
    rw [name] at mem
    rcases s with _ | _ | s <;> simp [importSteps, importOutline] at mem

theorem unfinished_from {frames : List (String × List Tree)}
    (h : Parser.Unfinished pythonTables (tokenize source) r frames)
    (name : r.name = "import_from") : BrokenFrom frames := by
  cases h with
  | @last _ s us known traced goesOn =>
    rw [name]
    refine .alone (traced_from known name traced) ?_
    rintro rfl
    have only : ∀ r ∈ pythonTables.rules.toList, r.name = "import_from" →
        r.acceptsOnly 6 = true := by
      decide +kernel
    rw [only r (Array.mem_toList_iff.2 known) name] at goesOn
    cases goesOn
  | @enter _ sub s us a frames known traced ha enters next =>
    have mem := mem_importSteps_of_enters known (by simp [name, importParts]) ha enters
    rw [name] at mem ⊢
    have shape := traced_from known name traced
    rcases s with _ | _ | _ | _ | _ | _ | _ | _ | s <;>
      simp [importSteps, importOutline] at mem
    · obtain ⟨s, vs, rfl, dotted⟩ := unfinished_dotted next mem.1
      cases shape with
      | dots _ front none => exact .path front none dotted
      | behind _ _ more => cases more
    · obtain ⟨s, vs, rfl, dotted⟩ := unfinished_dotted next mem.1
      cases shape with
      | dots _ front none => exact .path front none dotted
      | behind _ _ more => cases more
    · cases shape with
      | dots state => omega
      | behind front hw more =>
        cases more
        exact .names front hw (.inl rfl) (unfinished_names next (by simp [mem.1]))
    · cases shape with
      | dots state => omega
      | behind front hw more =>
        cases more with
        | opened ho =>
          exact .names front hw (.inr ⟨_, rfl, ho⟩) (unfinished_names next (by simp [mem.1]))

end Import

end Caret

import Caret.Proofs.Tables
/-!
# Numbering with a registry

To number a label is to look for its place in the list of labels, and so is to find the number of a
reserved word or of a token type again. A registry keeps these places as the labels come in: the
number of each label, and apart from that the numbers of reserved words and of token types. Nothing
changes but the way in which a number is found. The registry refuses and numbers what the list of
labels does, and what it holds in the end are the places in that list.

Results:
* `IndexedGrammar.ofLines`: the tables of a description with the indexes of their registry.
* `Follows.add`, `Follows.skip`: an index goes along with a label that is added.
* `sound_register`: so do all of them, and the number is the one in the list of labels.
* `numberRules_alike`: rules are numbered alike with the registry and without.
* `ofLines_indexed`: the tables are the same, and the indexes answer as a search does.
-/
namespace Caret

/-- Labels in the order of their numbers, and indexes with the latest entry first. -/
structure Registry where
  labels : List Label
  numbers : List (Label × Nat)
  keywords : List (Keyword × Nat)
  tokens : List (TokenKind × Nat)

namespace Registry

/-- Before the first rule only the empty label has a number. -/
def new : Registry := ⟨[.empty], [(.empty, 0)], [], []⟩

/-- Give the next number to a label. -/
def add (reg : Registry) (l : Label) : Registry :=
  let i := reg.labels.length
  let added := { reg with labels := reg.labels ++ [l], numbers := (l, i) :: reg.numbers }
  match l with
  | .keyword k => { added with keywords := (k, i) :: reg.keywords }
  | .token kind => { added with tokens := (kind, i) :: reg.tokens }
  | .empty | .rule _ => added

/-- The number of a label, which is added if it has none. -/
def register (reg : Registry) (l : Label) : Nat × Registry :=
  match reg.numbers.lookup l with
  | some i => (i, reg)
  | none => (reg.labels.length, reg.add l)

/-- Number what a label of `rule` means. -/
def number (rules : List CompiledRule) (rule : Text) (reg : Registry) (label : Text) :
    Except GrammarError (Nat × Registry) := do
  pure (reg.register (← Grammar.meaning rules rule label))

/-- Number the labels of a state's arcs. -/
def numberArcs (rules : List CompiledRule) (rule : Text) (reg : Registry) :
    List (Text × Nat) → Except GrammarError (List Arc × Registry)
  | [] => .ok ([], reg)
  | (label, target) :: rest => do
    let (index, reg) ← number rules rule reg label
    let (arcs, reg) ← numberArcs rules rule reg rest
    pure (⟨index, target⟩ :: arcs, reg)

/-- Number the labels of the states from the `index`-th on, with an empty arc behind the arcs of an
accepting state. -/
def numberStates (rules : List CompiledRule) (rule : Text) (index : Nat) (reg : Registry) :
    List Dfa.State → Except GrammarError (List (List Arc) × Registry)
  | [] => .ok ([], reg)
  | state :: rest => do
    let (arcs, reg) ← numberArcs rules rule reg state.arcs
    let arcs := if state.accepting then arcs ++ [⟨0, index⟩] else arcs
    let (states, reg) ← numberStates rules rule (index + 1) reg rest
    pure (arcs :: states, reg)

/-- Number the terminals that a rule can start with. -/
def numberFirst (rules : List CompiledRule) (rule : Text) (reg : Registry) (found : List Nat) :
    List Text → Except GrammarError (List Nat × Registry)
  | [] => .ok (found, reg)
  | label :: rest => do
    let (index, reg) ← number rules rule reg label
    numberFirst rules rule reg (Ascending.insert index found) rest

/-- The tables of the last rules, the first of them having the number `index`. -/
def numberRules (rules : List CompiledRule) (first : First.Table) (index : Nat) (reg : Registry) :
    List CompiledRule → Except GrammarError (List RuleTable × Registry)
  | [] => .ok ([], reg)
  | rule :: rest => do
    let (states, reg) ← numberStates rules rule.name 0 reg rule.states
    let (terminals, reg) ← numberFirst rules rule.name reg [] (First.terminals first rule.name)
    let (tables, reg) ← numberRules rules first (index + 1) reg rest
    pure (⟨index, String.ofList rule.name, states.toArray, terminals⟩ :: tables, reg)

end Registry

/-- Parse tables with indexes of their reserved words and token types. -/
structure IndexedGrammar where
  grammar : Grammar
  keywords : List (Keyword × Nat)
  tokens : List (TokenKind × Nat)

namespace IndexedGrammar

/-- The tables of compiled rules. -/
def ofCompiled (rules : List CompiledRule) : Except GrammarError IndexedGrammar := do
  if rules.isEmpty then throw .empty
  let first ← First.table rules
  let (tables, reg) ← Registry.numberRules rules first 0 .new rules
  pure ⟨⟨reg.labels.toArray, tables.toArray⟩, reg.keywords, reg.tokens⟩

/-- The tables of a description, given by its lines. -/
def ofLines (lines : List Text) : Except GrammarError IndexedGrammar := do
  ofCompiled ((← Description.rules lines).map .ofRule)

/-- The label of a reserved word, if the grammar uses it. -/
def keywordLabel? (x : IndexedGrammar) (k : Keyword) : Option Nat := x.keywords.lookup k

/-- The label of a token type, if the grammar uses it. -/
def tokenLabel? (x : IndexedGrammar) (kind : TokenKind) : Option Nat := x.tokens.lookup kind

end IndexedGrammar

namespace Registry

variable {rules : List CompiledRule} {rule : Text} {reg : Registry} {labels : List Label}
  {l : Label}

/-! ## Indexes -/

theorem idxOf?_concat {m : Label} (new : l ∉ labels) :
    (labels ++ [l]).idxOf? m = if m = l then some labels.length else labels.idxOf? m := by
  have whole : (labels ++ [l]).idxOf? m =
      (labels.idxOf? m).or (([l].idxOf? m).map (· + labels.length)) := List.findIdx?_append
  rw [whole]
  split
  · next h =>
    subst h
    rw [List.idxOf?_eq_none_iff.2 new]
    simp [List.idxOf?_cons]
  · next h => simp [List.idxOf?_cons, Ne.symm h]

/-- The index holds the places of the labels of one kind. -/
def Follows {κ : Type} [BEq κ] (kind : κ → Label) (index : List (κ × Nat)) (labels : List Label) :
    Prop := ∀ x, index.lookup x = labels.idxOf? (kind x)

section Follows

variable {κ : Type} [BEq κ] {kind : κ → Label} {index : List (κ × Nat)} {x : κ}

/-- A label of the kind is added to both. -/
theorem Follows.add [LawfulBEq κ] (h : Follows kind index labels) (one : Function.Injective kind)
    (new : kind x ∉ labels) : Follows kind ((x, labels.length) :: index) (labels ++ [kind x]) := by
  intro y
  rw [idxOf?_concat new, List.lookup_cons]
  by_cases same : y = x
  · simp [same]
  · have other : kind y ≠ kind x := fun e => same (one e)
    rw [beq_false_of_ne same, if_neg other]
    exact h y

/-- A label of another kind leaves the index as it is. -/
theorem Follows.skip (h : Follows kind index labels) (new : l ∉ labels)
    (other : ∀ y, kind y ≠ l) : Follows kind index (labels ++ [l]) := by
  intro y
  rw [idxOf?_concat new, if_neg (other y), h y]

end Follows

/-- All indexes hold the places of their labels, and a label that is a rule is one of the rules. -/
structure Sound (rules : List CompiledRule) (reg : Registry) : Prop where
  numbers : Follows id reg.numbers reg.labels
  keywords : Follows .keyword reg.keywords reg.labels
  tokens : Follows .token reg.tokens reg.labels
  rules : ∀ {j : Nat}, Label.rule j ∈ reg.labels → j < rules.length

theorem sound_new : Sound rules new := by
  refine ⟨fun l => ?_, fun k => rfl, fun kind => rfl, fun h => by simp [new] at h⟩
  cases l <;> rfl

theorem add_labels : (reg.add l).labels = reg.labels ++ [l] := by cases l <;> rfl

theorem add_numbers : (reg.add l).numbers = (l, reg.labels.length) :: reg.numbers := by
  cases l <;> rfl

theorem Sound.add (h : reg.Sound rules) (new : l ∉ reg.labels)
    (known : ∀ {j : Nat}, l = .rule j → j < rules.length) : (reg.add l).Sound rules := by
  have numbers : Follows id (reg.add l).numbers (reg.add l).labels := by
    rw [add_numbers, add_labels]
    exact h.numbers.add Function.injective_id new
  have named {j : Nat} (hj : Label.rule j ∈ (reg.add l).labels) : j < rules.length := by
    rw [add_labels, List.mem_append, List.mem_singleton] at hj
    exact hj.elim h.rules fun e => known e.symm
  cases l with
  | keyword k =>
    exact ⟨numbers, h.keywords.add (fun _ _ => Label.keyword.inj) new,
      h.tokens.skip new (by simp), named⟩
  | token kind =>
    exact ⟨numbers, h.keywords.skip new (by simp),
      h.tokens.add (fun _ _ => Label.token.inj) new, named⟩
  | empty => exact ⟨numbers, h.keywords.skip new (by simp), h.tokens.skip new (by simp), named⟩
  | rule j => exact ⟨numbers, h.keywords.skip new (by simp), h.tokens.skip new (by simp), named⟩

/-- A label gets the number that its place in the list of labels is. -/
theorem sound_register (h : reg.Sound rules) (known : ∀ {j : Nat}, l = .rule j → j < rules.length) :
    (reg.register l).2.Sound rules ∧
      Grammar.intern reg.labels l = ((reg.register l).1, (reg.register l).2.labels) := by
  have found : reg.numbers.lookup l = reg.labels.idxOf? l := h.numbers l
  unfold register Grammar.intern
  rw [found]
  cases place : reg.labels.idxOf? l with
  | some i => exact ⟨h, rfl⟩
  | none => exact ⟨h.add (List.idxOf?_eq_none_iff.1 place) known, by rw [add_labels]⟩

/-! ## Numbering alike -/

variable {α β γ : Type}

/-- Both are refused for the same reason, or come to the same, and the registry has the labels. -/
inductive Alike (rules : List CompiledRule) :
    Except GrammarError (α × Registry) → Except GrammarError (α × List Label) → Prop
  | ok (a : α) {reg : Registry} (h : reg.Sound rules) :
      Alike rules (.ok (a, reg)) (.ok (a, reg.labels))
  | error (e : GrammarError) : Alike rules (.error e) (.error e)

/-- What is done next is alike in any sense in which errors are. -/
theorem Alike.bind {R : Except GrammarError β → Except GrammarError γ → Prop}
    {x : Except GrammarError (α × Registry)} {y : Except GrammarError (α × List Label)}
    {f : α × Registry → Except GrammarError β} {f' : α × List Label → Except GrammarError γ}
    (h : Alike rules x y) (fails : ∀ e, R (.error e) (.error e))
    (next : ∀ a {reg : Registry}, reg.Sound rules → R (f (a, reg)) (f' (a, reg.labels))) :
    R (x >>= f) (y >>= f') := by
  cases h with
  | ok a h => exact next a h
  | error e => exact fails e

theorem number_alike (h : reg.Sound rules) (label : Text) :
    Alike rules (number rules rule reg label) (Grammar.number rules rule reg.labels label) := by
  unfold number Grammar.number
  cases hm : Grammar.meaning rules rule label with
  | error e => exact .error e
  | ok l =>
    have known {j : Nat} (e : l = .rule j) : j < rules.length := by
      subst e
      obtain ⟨sub, hj, -⟩ := (Grammar.means_of_meaning hm).rule_getElem?
      exact (List.getElem?_eq_some_iff.1 hj).1
    obtain ⟨sound, same⟩ := sound_register h known
    have both : Alike rules (.ok (reg.register l)) (.ok (Grammar.intern reg.labels l)) :=
      same ▸ .ok _ sound
    exact both

theorem numberArcs_alike (h : reg.Sound rules) (arcs : List (Text × Nat)) :
    Alike rules (numberArcs rules rule reg arcs)
      (Grammar.numberArcs rules rule reg.labels arcs) := by
  induction arcs generalizing reg with
  | nil => exact .ok [] h
  | cons arc rest ih =>
    refine (number_alike h arc.1).bind .error fun i _ h => ?_
    refine (ih h).bind .error fun arcs _ h => ?_
    exact .ok _ h

theorem numberStates_alike {index : Nat} (h : reg.Sound rules) (states : List Dfa.State) :
    Alike rules (numberStates rules rule index reg states)
      (Grammar.numberStates rules rule index reg.labels states) := by
  induction states generalizing index reg with
  | nil => exact .ok [] h
  | cons state rest ih =>
    refine (numberArcs_alike h state.arcs).bind .error fun arcs _ h => ?_
    refine (ih h).bind .error fun states _ h => ?_
    exact .ok _ h

theorem numberFirst_alike {found : List Nat} (h : reg.Sound rules) (texts : List Text) :
    Alike rules (numberFirst rules rule reg found texts)
      (Grammar.numberFirst rules rule reg.labels found texts) := by
  induction texts generalizing found reg with
  | nil => exact .ok found h
  | cons text rest ih => exact (number_alike h text).bind .error fun i _ h => ih h

theorem numberRules_alike {first : First.Table} {index : Nat} (h : reg.Sound rules)
    (rs : List CompiledRule) :
    Alike rules (numberRules rules first index reg rs)
      (Grammar.numberRules rules first index reg.labels rs) := by
  induction rs generalizing index reg with
  | nil => exact .ok [] h
  | cons r rest ih =>
    refine (numberStates_alike h r.states).bind .error fun states _ h => ?_
    refine (numberFirst_alike h _).bind .error fun terminals _ h => ?_
    refine (ih h).bind .error fun tables _ h => ?_
    exact .ok _ h

end Registry

namespace IndexedGrammar

variable {rules : List CompiledRule} {g : Grammar}

/-- The indexes answer as a search in the labels does, and a label that is a rule is one of the
rules. -/
structure Indexed (rules : List CompiledRule) (x : IndexedGrammar) : Prop where
  keyword : ∀ k, x.keywordLabel? k = x.grammar.keywordLabel? k
  token : ∀ kind, x.tokenLabel? kind = x.grammar.tokenLabel? kind
  rule : ∀ {i j : Nat}, x.grammar.label? i = some (.rule j) → j < rules.length

theorem indexed_of_sound {reg : Registry} {tables : Array RuleTable} (h : reg.Sound rules) :
    Indexed rules ⟨⟨reg.labels.toArray, tables⟩, reg.keywords, reg.tokens⟩ := by
  refine ⟨fun k => ?_, fun kind => ?_, fun {i j} hj => ?_⟩
  · rw [Grammar.keywordLabel?, List.idxOf?_toArray]
    exact h.keywords k
  · rw [Grammar.tokenLabel?, List.idxOf?_toArray]
    exact h.tokens kind
  · rw [Grammar.label?, List.getElem?_toArray] at hj
    exact h.rules (List.mem_of_getElem? hj)

/-- Without indexes the tables are the same, or refused for the same reason. -/
inductive Alike (rules : List CompiledRule) :
    Except GrammarError IndexedGrammar → Except GrammarError Grammar → Prop
  | ok {x : IndexedGrammar} (h : x.Indexed rules) : Alike rules (.ok x) (.ok x.grammar)
  | error (e : GrammarError) : Alike rules (.error e) (.error e)

theorem ofCompiled_alike (rules : List CompiledRule) :
    Alike rules (ofCompiled rules) (Grammar.ofCompiled rules) := by
  unfold ofCompiled Grammar.ofCompiled
  split
  · exact .error .empty
  cases First.table rules with
  | error e => exact .error e
  | ok first =>
    refine (Registry.numberRules_alike Registry.sound_new rules).bind (R := Alike rules) .error
      fun tables _ h => ?_
    exact .ok (indexed_of_sound h)

/-- The tables of a description can be made with indexes, which answer as a search in the labels
does. -/
theorem ofLines_indexed {lines : List Text} (h : Grammar.ofLines lines = .ok g) :
    ∃ rs x, Description.rules lines = .ok rs ∧ ofLines lines = .ok x ∧ x.grammar = g ∧
      x.Indexed (rs.map .ofRule) := by
  obtain ⟨rs, hrs, h⟩ := Except.bind_ok.1 h
  have alike := ofCompiled_alike (rs.map .ofRule)
  rw [h] at alike
  generalize made : ofCompiled (rs.map .ofRule) = x at alike
  cases alike with
  | @ok x indexed => exact ⟨rs, x, hrs, Except.bind_ok.2 ⟨rs, hrs, made⟩, rfl, indexed⟩

end IndexedGrammar

end Caret

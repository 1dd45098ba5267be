import Caret.Proofs.Linkage
import Caret.Proofs.Reading
import Caret.Proofs.Registry
/-!
# What the labels of a table stand for

A label of a rule is a word or a literal, and what it means gives it back: a rule is shown by its
name, a token type by its name or its spelling in quotes, a keyword by its spelling in quotes. So
different labels have different numbers, although a rule may take the name of a token type, and the
arcs out of a state, which the deterministic states keep apart by their labels, are kept apart by
their numbers.

Results:
* `rules_labels`: the labels of a description are words and literals.
* `labels_ofRule`: a compiled state has each label once, and only labels of its rule.
* `describe_numbers`: a label is shown as it is written.
* `labels_nodup`: the arcs of a state carry different labels.
* `tabulates`: how the tables of a description hold together.
-/
namespace Caret

/-- The labels of a right-hand side. -/
def Rhs.labels : Rhs → List Text
  | .label text => [text]
  | .optional body | .plus body | .star body => body.labels
  | .seq first second | .alt first second => first.labels ++ second.labels

namespace Description

variable {level : Level} {ps : List Piece} {r : Rhs} {text : Text}

/-- The text is a word or a literal. -/
def IsLabel (text : Text) : Prop := StartsWord text ∨ Quoted text

theorem Written.labels (h : Written level ps r) (proper : ∀ p ∈ ps, Proper p) :
    ∀ text ∈ r.labels, IsLabel text := by
  induction h with
  | word text => simpa [Rhs.labels] using .inl (proper (.word text) List.mem_cons_self)
  | literal text => simpa [Rhs.labels] using .inr (proper (.literal text) List.mem_cons_self)
  | group _ ih | optional _ ih =>
    exact ih fun p hp => proper p (List.mem_cons_of_mem _ (List.mem_append_left _ hp))
  | once _ ih | last _ ih | only _ ih => exact ih proper
  | plus _ ih | star _ ih => exact ih fun p hp => proper p (List.mem_append_left _ hp)
  | items _ _ ih ih' =>
    obtain ⟨first, second⟩ := List.forall_mem_append.1 proper
    exact List.forall_mem_append.2 ⟨ih first, ih' second⟩
  | choice _ _ ih ih' =>
    obtain ⟨first, second⟩ := List.forall_mem_append.1 proper
    exact List.forall_mem_append.2 ⟨ih first, ih' (List.forall_mem_cons.1 second).2⟩

/-- The labels of a description are words and literals. -/
theorem rules_labels {lines : List Text} {rs : List Rule} (h : rules lines = .ok rs) :
    ∀ rule ∈ rs, ∀ text ∈ rule.rhs.labels, IsLabel text := by
  obtain ⟨texts, gathered, written⟩ := rules_read h
  intro rule hrule
  obtain ⟨source, hsource, qs, pieces, rhs⟩ := Dfa.forall₂_of_mem written hrule
  have proper := gather_proper (by simp) gathered source hsource
  rw [pieces] at proper
  exact rhs.labels fun p hp =>
    proper p (List.mem_cons_of_mem _ (List.mem_cons_of_mem _ hp))

end Description

/-! ## Labels of compiled states -/

namespace Nfa

variable {nfa : Nfa} {rhs : Rhs} {text : Text} {a : Arc}

/-- The arcs of a fragment carry labels of the right-hand side. -/
theorem fragment_labels {next : Nat} (ha : a ∈ (fragment next rhs).arcs)
    (hl : a.label = some text) : text ∈ rhs.labels := by
  induction rhs generalizing next with
  | label own =>
    obtain rfl := List.mem_singleton.1 ha
    cases hl
    exact List.mem_singleton_self _
  | optional body ih | plus body ih | star body ih =>
    rcases List.mem_cons.1 ha with rfl | ha
    · cases hl
    · exact ih ha
  | seq first second ihf ihs =>
    rcases List.mem_cons.1 ha with rfl | ha
    · cases hl
    rcases List.mem_append.1 ha with ha | ha
    · exact List.mem_append_left _ (ihf ha)
    · exact List.mem_append_right _ (ihs ha)
  | alt first second ihf ihs =>
    simp only [fragment, List.mem_cons, List.mem_append] at ha
    rcases ha with rfl | rfl | rfl | rfl | ha | ha
    · cases hl
    · cases hl
    · cases hl
    · cases hl
    · exact List.mem_append_left _ (ihf ha)
    · exact List.mem_append_right _ (ihs ha)

/-- The labels that leave a set of states, each once. -/
theorem moves_labels (nfa : Nfa) (set : List Nat) :
    ((nfa.moves set).map (·.1)).Nodup ∧
      ∀ label ∈ (nfa.moves set).map (·.1), ∃ a ∈ nfa.arcs, a.label = some label := by
  have labels : (nfa.moves set).map (·.1) = Ascending.ofList ((nfa.leaving set).map (·.1)) := by
    rw [moves, List.map_map]
    exact List.map_id _
  have ascending := Ascending.pairwise_ofList ((nfa.leaving set).map (·.1))
  rw [labels]
  refine ⟨ascending.imp (S := (· ≠ ·)) fun h => ?_, fun label hl => ?_⟩
  · rintro rfl
    exact List.lt_irrefl _ h
  obtain ⟨⟨_, t⟩, step, rfl⟩ := List.mem_map.1 (Ascending.mem_ofList.1 hl)
  obtain ⟨s, -, arc⟩ := mem_leaving.1 step
  exact ⟨_, arc, rfl⟩

end Nfa

namespace Dfa

variable {nfa : Nfa} {states merged : List State}

/-- The labels of the arcs out of a state. -/
def State.labels (state : State) : List Text := state.arcs.map (·.1)

theorem StandsFor.labels {sets : List (List Nat)} {set : List Nat} {state : State}
    (h : StandsFor nfa sets set state) : state.labels = (nfa.moves set).map (·.1) := by
  have same : List.Forall₂ (· = ·) (state.arcs.map (·.1)) ((nfa.moves set).map (·.1)) := by
    rw [List.forall₂_map_left_iff, List.forall₂_map_right_iff]
    exact h.1.flip.imp fun _ _ numbers => numbers.1
  exact List.forall₂_eq_eq_eq ▸ same

/-- A deterministic state has each label once, and the labels are those of the automaton. -/
theorem ofNfa_labels (wf : nfa.WellFormed) : ∀ state ∈ ofNfa nfa, state.labels.Nodup ∧
    ∀ label ∈ state.labels, ∃ a ∈ nfa.arcs, a.label = some label := by
  obtain ⟨all, -, -, stands⟩ := ofNfa_stands wf
  intro state hstate
  obtain ⟨set, -, own⟩ := forall₂_of_mem stands hstate
  rw [StandsFor.labels own]
  exact nfa.moves_labels set

/-- Merging twins leaves the labels of the states that are left. -/
theorem Merges.labels (h : Merges states merged) :
    ∀ state ∈ merged, ∃ old ∈ states, state.labels = old.labels := by
  induction h with
  | done => exact fun state hstate => ⟨state, hstate, rfl⟩
  | @round states merged keep drop h _ ih =>
    intro state hstate
    obtain ⟨_, hmid, same⟩ := ih state hstate
    obtain ⟨old, hold, rfl⟩ := List.mem_map.1 hmid
    refine ⟨old, List.mem_of_mem_eraseIdx hold, same.trans ?_⟩
    simp only [State.labels, List.map_map]
    rfl

end Dfa

/-- A compiled state has each label once, and only labels of its rule. -/
theorem CompiledRule.labels_ofRule (rule : Rule) : ∀ state ∈ (ofRule rule).states,
    state.labels.Nodup ∧ ∀ label ∈ state.labels, label ∈ rule.rhs.labels := by
  intro state hstate
  obtain ⟨old, hold, same⟩ :=
    (Dfa.merges_simplify (Dfa.ofNfa (Nfa.ofRhs rule.rhs))).labels state hstate
  obtain ⟨nodup, own⟩ := Dfa.ofNfa_labels (Nfa.ofRhs_wellFormed rule.rhs) old hold
  rw [same]
  refine ⟨nodup, fun label hl => ?_⟩
  obtain ⟨a, ha, carries⟩ := own label hl
  exact Nfa.fragment_labels ha carries

/-! ## How labels are shown -/

theorem Keyword.spelling_of_ofText? {text : Text} {k : Keyword} (h : ofText? text = some k) :
    k.spelling = String.ofList text := by
  simpa using List.find?_some h

theorem Operator.spelling_of_ofText? {text : Text} {o : Operator} (h : ofText? text = some o) :
    o.spelling = String.ofList text := by
  simpa using List.find?_some h

theorem TokenKind.render_of_ofTerminal? {name : String} {kind : TokenKind}
    (h : ofTerminal? name = some kind) : kind.render = name := by
  unfold ofTerminal? at h
  split at h <;> cases h <;> rfl

namespace Grammar

variable {rules : List CompiledRule} {rule text : Text} {labels : List Label} {found : First.Table}
  {g : Grammar} {r : RuleTable} {i : Nat}

theorem dropWhile_plain (plain : '\'' ∉ text) : text.dropWhile (· == '\'') = text := by
  cases text with
  | nil => rfl
  | cons c rest =>
    have other : ¬ (c == '\'') = true := fun e => plain (beq_iff_eq.1 e ▸ List.mem_cons_self)
    rw [List.dropWhile_cons, if_neg other]

theorem unquote_quoted {inside : Text} (plain : '\'' ∉ inside) :
    unquote ('\'' :: (inside ++ ['\''])) = inside := by
  have back : '\'' ∉ inside.reverse := fun h => plain (List.mem_reverse.1 h)
  unfold unquote
  rw [List.dropWhile_cons, if_pos (beq_self_eq_true _), List.dropWhile_append,
    dropWhile_plain plain]
  split
  · next none => rw [List.isEmpty_iff.1 none]; rfl
  · rw [List.reverse_append, List.reverse_singleton, List.singleton_append, List.dropWhile_cons,
      if_pos (beq_self_eq_true _), dropWhile_plain back, List.reverse_reverse]

theorem quoted_eq {s : String} {inside : Text} (h : s = String.ofList inside) :
    s!"'{s}'" = String.ofList ('\'' :: (inside ++ ['\''])) := by
  apply String.toList_inj.1
  simp [toString, h]

/-- A word or a literal can be read off what it means. -/
theorem meaning_written {l : Label} (form : Description.IsLabel text)
    (h : meaning rules rule text = .ok l) :
    match l with
    | .empty => False
    | .keyword k => s!"'{k.spelling}'" = String.ofList text
    | .token kind => kind.render = String.ofList text
    | .rule j => ∃ sub, rules[j]? = some sub ∧ sub.name = text := by
  have quoted (literal : ¬ Description.StartsWord text) {s : String}
      (h : s = String.ofList (unquote text)) : s!"'{s}'" = String.ofList text := by
    obtain ⟨inside, plain, rfl⟩ := form.resolve_left literal
    rw [unquote_quoted plain] at h
    exact quoted_eq h
  cases means_of_meaning h with
  | rule word hj => exact (Means.rule word hj).rule_getElem?
  | tokenType _ _ hk => exact TokenKind.render_of_ofTerminal? hk
  | keyword literal hk => exact quoted literal (Keyword.spelling_of_ofText? hk)
  | operator literal ho => exact quoted literal (Operator.spelling_of_ofText? ho)

/-- No word or literal has the number of the empty label. -/
theorem Numbers.not_empty (form : Description.IsLabel text)
    (h : Numbers rules rule g.labels.toList text i) : g.label? i ≠ some .empty := by
  obtain ⟨l, hm, hi⟩ := h
  have written := meaning_written form hm
  rw [Array.getElem?_toList] at hi
  intro empty
  rw [label?, hi] at empty
  cases empty
  exact written

/-! ## What the tables hold -/

/-- The arcs of the `s`-th state of a rule, against the compiled state. -/
structure KeepsState (g : Grammar) (r : RuleTable) (s : Nat) (state : Dfa.State) : Prop where
  /-- The label of an arc is one of the table's. -/
  known : ∀ a ∈ r.arcs s, ∃ l, g.label? a.label = some l
  target : ∀ a ∈ r.arcs s, a.target < r.states.size
  distinct : ((r.arcs s).map (·.label)).Nodup
  /-- An empty arc is the last one and leads back to the state. -/
  last : ∀ k a, (r.arcs s)[k]? = some a → g.label? a.label = some .empty →
    k + 1 = (r.arcs s).length ∧ a.target = s
  /-- There is an empty arc just if the compiled state accepts. -/
  ends : (∃ a ∈ r.arcs s, g.label? a.label = some .empty) ↔ state.accepting = true

/-- The table of the `index`-th rule, against the compiled rule. -/
structure KeepsRule (g : Grammar) (index : Nat) (rule : CompiledRule) (r : RuleTable) : Prop where
  index_eq : r.index = index
  name_eq : r.name = String.ofList rule.name
  size_eq : r.states.size = rule.states.length
  state : ∀ s state, rule.states[s]? = some state → g.KeepsState r s state
  /-- The rule can start with reserved words and token types, and with nothing else. -/
  first : ∀ i ∈ r.first,
    (∃ k, g.label? i = some (.keyword k)) ∨ ∃ kind, g.label? i = some (.token kind)

/-- The tables of a description: the empty label is the first one and no label is there twice, each
rule has its table, a label that is a rule has one, and the numbers of reserved words and token
types, also as they are kept in indexes, are their places among the labels. -/
structure Tabulates (lines : List Text) (g : Grammar) : Prop where
  empty : g.label? 0 = some .empty
  nodup : g.labels.toList.Nodup
  rules : ∃ rs, Description.rules lines = .ok rs ∧ g.rules.size = rs.length ∧
    ∀ i rule, rs[i]? = some rule → ∃ r, g.rule? i = some r ∧ g.KeepsRule i (.ofRule rule) r
  named : ∀ i j, g.label? i = some (.rule j) → ∃ r, g.rule? j = some r
  keyword : ∀ k i, g.keywordLabel? k = some i ↔ g.label? i = some (.keyword k)
  token : ∀ kind i, g.tokenLabel? kind = some i ↔ g.label? i = some (.token kind)
  indexed : ∃ x, IndexedGrammar.ofLines lines = .ok x ∧ x.grammar = g ∧
    (∀ k, x.keywordLabel? k = g.keywordLabel? k) ∧ ∀ kind, x.tokenLabel? kind = g.tokenLabel? kind

namespace Made

variable (made : Made rules found g)

include made

/-- A label is shown as it is written. -/
theorem describe_numbers (form : Description.IsLabel text)
    (h : Numbers rules rule g.labels.toList text i) : g.describe i = String.ofList text := by
  obtain ⟨l, hm, hi⟩ := h
  have written := meaning_written form hm
  rw [Array.getElem?_toList] at hi
  rw [describe, label?, hi]
  cases l with
  | empty => exact written.elim
  | keyword k => exact written
  | token kind => exact written
  | rule j =>
    obtain ⟨sub, hj, rfl⟩ := written
    obtain ⟨table, ht, numbers⟩ := made.numbers.rule hj
    simp [ruleName, ht, numbers.name_eq]

/-- Arcs with different texts have different numbers, since the numbers are shown as the texts. -/
theorem labels_nodup {arcs : List (Text × Nat)} {own : List Arc}
    (h : List.Forall₂ (NumbersArc rules rule g.labels.toList) arcs own)
    (form : ∀ label ∈ arcs.map (·.1), Description.IsLabel label) (nodup : (arcs.map (·.1)).Nodup) :
    (own.map (·.label)).Nodup := by
  have shown : (own.map (·.label)).map g.describe = (arcs.map (·.1)).map String.ofList := by
    clear nodup
    induction h with
    | nil => rfl
    | cons arc _ ih =>
      obtain ⟨first, rest⟩ := List.forall_mem_cons.1 form
      simp only [List.map_cons, ih rest, made.describe_numbers first arc.2]
  have apart : ((own.map (·.label)).map g.describe).Nodup :=
    shown ▸ nodup.map fun _ _ => String.ofList_injective
  exact apart.of_map

end Made

/-- A state's own arcs carry labels of the table, and not the empty one. -/
theorem written_arcs {arcs : List (Text × Nat)} {own : List Arc}
    (h : List.Forall₂ (NumbersArc rules rule g.labels.toList) arcs own)
    (form : ∀ label ∈ arcs.map (·.1), Description.IsLabel label) :
    ∀ a ∈ own, (∃ l, g.label? a.label = some l) ∧ g.label? a.label ≠ some .empty := by
  intro a ha
  obtain ⟨p, hp, -, number⟩ := Dfa.forall₂_of_mem h ha
  have label := form _ (List.mem_map_of_mem hp)
  refine ⟨?_, number.not_empty label⟩
  obtain ⟨l, -, hl⟩ := number
  exact ⟨l, by rwa [Array.getElem?_toList] at hl⟩

/-- The arcs of a state are its own, and an empty one behind them if it accepts. -/
theorem NumbersRule.arcs_eq {index s : Nat} {rule : CompiledRule} {state : Dfa.State}
    (numbers : NumbersRule rules found labels index rule r) (hs : rule.states[s]? = some state) :
    ∃ own, r.arcs s = own ++ (if state.accepting then [⟨0, s⟩] else []) ∧
      List.Forall₂ (NumbersArc rules rule.name labels) state.arcs own := by
  obtain ⟨_, hs', own, hown, rfl⟩ := numbers.state hs
  refine ⟨own, ?_, hown⟩
  rw [RuleTable.arcs, hs', Option.getD_some]
  split
  · rfl
  · exact (List.append_nil _).symm

/-- Arcs that carry different labels, none of them empty, with an empty arc behind them or not. -/
theorem keepsState_of_arcs {s : Nat} {state : Dfa.State} {own : List Arc}
    (empty : g.label? 0 = some .empty)
    (arcs : r.arcs s = own ++ if state.accepting then [⟨0, s⟩] else [])
    (written : ∀ a ∈ own, (∃ l, g.label? a.label = some l) ∧ g.label? a.label ≠ some .empty)
    (apart : (own.map (·.label)).Nodup) (inside : ∀ a ∈ r.arcs s, a.target < r.states.size) :
    g.KeepsState r s state := by
  have mem (a : Arc) : a ∈ r.arcs s ↔ a ∈ own ∨ (state.accepting = true ∧ a = ⟨0, s⟩) := by
    rw [arcs, List.mem_append]
    cases state.accepting <;> simp
  constructor
  case known =>
    intro a ha
    rcases (mem a).1 ha with ha | ⟨-, rfl⟩
    · exact (written a ha).1
    · exact ⟨.empty, empty⟩
  case target => exact inside
  case distinct =>
    rw [arcs, List.map_append, List.nodup_append]
    refine ⟨apart, by split <;> simp, ?_⟩
    intro x hx y hy same
    obtain ⟨a, ha, rfl⟩ := List.mem_map.1 hx
    split at hy
    · obtain rfl : y = 0 := by simpa using hy
      exact (written a ha).2 (by rw [same, empty])
    · simp at hy
  case last =>
    intro k a hk he
    rw [arcs] at hk ⊢
    rcases Nat.lt_or_ge k own.length with front | behind
    · rw [List.getElem?_append_left front] at hk
      exact absurd he (written a (List.mem_of_getElem? hk)).2
    · rw [List.getElem?_append_right behind] at hk
      split at hk
      · next accepting =>
        rw [List.getElem?_singleton] at hk
        split at hk
        · next place =>
          cases hk
          refine ⟨?_, rfl⟩
          rw [if_pos accepting, List.length_append, List.length_singleton]
          omega
        · cases hk
      · simp at hk
  case ends =>
    constructor
    · rintro ⟨a, ha, he⟩
      rcases (mem a).1 ha with ha | ⟨accepting, -⟩
      · exact absurd he (written a ha).2
      · exact accepting
    · exact fun accepting => ⟨⟨0, s⟩, (mem _).2 (.inr ⟨accepting, rfl⟩), empty⟩

theorem Made.keepsState (made : Made rules found g) {index s : Nat} {rule : CompiledRule}
    {state : Dfa.State} (numbers : NumbersRule rules found g.labels.toList index rule r)
    (hs : rule.states[s]? = some state) (inside : ∀ a ∈ r.arcs s, a.target < r.states.size)
    (form : ∀ label ∈ state.labels, Description.IsLabel label) (nodup : state.labels.Nodup) :
    g.KeepsState r s state := by
  obtain ⟨own, arcs, numbered⟩ := numbers.arcs_eq hs
  exact keepsState_of_arcs made.numbers.empty arcs (written_arcs numbered form)
    (made.labels_nodup numbered form nodup) inside

/-- A terminal is a reserved word or a token type. -/
theorem terminal_cases (h : g.isTerminal i = true) :
    (∃ k, g.label? i = some (.keyword k)) ∨ ∃ kind, g.label? i = some (.token kind) := by
  unfold isTerminal at h
  split at h
  · next hk => exact .inl ⟨_, hk⟩
  · next ht => exact .inr ⟨_, ht⟩
  · cases h

/-- The number found for a label is its only place among the labels. -/
theorem Consistent.idxOf?_iff (ok : g.Consistent) {l : Label} :
    g.labels.idxOf? l = some i ↔ g.label? i = some l := ⟨label?_of_idxOf?, ok.idxOf?⟩

/-- Each rule of a description has its table. -/
theorem exists_keepsRule {lines : List Text} {rs : List Rule} {rule : Rule}
    (hrs : Description.rules lines = .ok rs) (made : Made (rs.map .ofRule) found g)
    (inside : g.InRange) (hi : rs[i]? = some rule) :
    ∃ r, g.rule? i = some r ∧ g.KeepsRule i (.ofRule rule) r := by
  have compiled : (rs.map CompiledRule.ofRule)[i]? = some (.ofRule rule) := by
    rw [List.getElem?_map, hi]
    rfl
  obtain ⟨r, hr, numbers⟩ := made.numbers.rule compiled
  have member : r ∈ g.rules := Array.mem_of_getElem? hr
  refine ⟨r, hr, numbers.index_eq, numbers.name_eq, numbers.size_eq, ?_, ?_⟩
  · intro s state hs
    obtain ⟨nodup, own⟩ := CompiledRule.labels_ofRule rule state (List.mem_of_getElem? hs)
    have form : ∀ label ∈ state.labels, Description.IsLabel label := fun label hl =>
      Description.rules_labels hrs rule (List.mem_of_getElem? hi) label (own label hl)
    exact made.keepsState numbers hs (fun a ha => inside.target member ha) form nodup
  · exact fun l hl => terminal_cases ((made.mem_first member).1 hl).1

/-- Every description that has tables, given by its lines, has such tables. -/
theorem tabulates {lines : List Text} (h : ofLines lines = .ok g) : g.Tabulates lines := by
  obtain ⟨rs, found, hrs, made⟩ := made_of_ofLines h
  obtain ⟨rs', x, hrs', indexed, same, answers⟩ := IndexedGrammar.ofLines_indexed h
  obtain rfl : rs = rs' := Except.ok.inj (hrs.symm.trans hrs')
  subst same
  have ok := made.consistent
  constructor
  case empty => exact made.numbers.empty
  case nodup => exact made.numbers.nodup
  case rules =>
    refine ⟨rs, hrs, ?_, fun i rule hi => exists_keepsRule hrs made (inRange_of_ofLines h) hi⟩
    rw [made.numbers.size_eq, List.length_map]
  case named =>
    intro i j hj
    have bound : j < x.grammar.rules.size := by
      rw [made.numbers.size_eq]
      exact answers.rule hj
    exact ⟨_, Array.getElem?_eq_getElem bound⟩
  case keyword => exact fun k i => ok.idxOf?_iff
  case token => exact fun kind i => ok.idxOf?_iff
  case indexed => exact ⟨x, indexed, rfl, answers.keyword, answers.token⟩

/-- A rule has the name of a token type, and an option starts with a keyword or an operator. -/
def shadowing : List Text :=
  ["s: NAME ['if' NAME | '...'] ENDMARKER".toList, "NAME: NUMBER+".toList]

theorem tabulates_shadowing : ∃ g, ofLines shadowing = .ok g ∧ g.Tabulates shadowing := by
  have compiles : (ofLines shadowing).isOk = true := by decide +kernel
  obtain ⟨g, compiled⟩ := Except.exists_ok compiles
  exact ⟨g, compiled, tabulates compiled⟩

example : (ofLines shadowing).toOption.map (·.labels) = some #[.empty, .rule 1,
    .token (.op .ellipsis), .keyword .kwIf, .token .endMarker, .token .number] := by
  decide +kernel

end Grammar

end Caret

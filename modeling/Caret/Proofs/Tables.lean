import Mathlib.Data.List.Count
import Mathlib.Data.List.Forall2
import Caret.Grammar
import Caret.Proofs.Notation
/-!
# How the tables of a description hang together

Labels are numbered as they are met, so a number once given stays, and each number in the tables
stands for what its text means (`Numbers`). From this and from the search for first terminals come
the facts that the parser lives on (`Consistent`).

Results:
* `ofCompiled_ok`: the tables of compiled rules are those rules with their labels numbered.
* `means_of_meaning`: what a text means, one case for each way to mean something.
* `consistent_of_ofLines`: the tables of a description are consistent.
* `Consistent.rank`: rules are ranked above those that they can start with.
-/
namespace Caret.Grammar

variable {rules : List CompiledRule} {rule text : Text} {labels labels' : List Label} {i : Nat}

/-! ## Numbers -/

/-- The number is that of the label that the text means in a rule. -/
def Numbers (rules : List CompiledRule) (rule : Text) (labels : List Label) (text : Text)
    (i : Nat) : Prop := ∃ l, meaning rules rule text = .ok l ∧ labels[i]? = some l

/-- Labels were added; the numbers that were there are the same, and all labels still differ. -/
structure Extends (labels labels' : List Label) : Prop where
  keeps : ∀ {i : Nat} {l : Label}, labels[i]? = some l → labels'[i]? = some l
  nodup : labels.Nodup → labels'.Nodup

theorem Extends.refl (labels : List Label) : Extends labels labels := ⟨id, id⟩

theorem Extends.trans {l₁ l₂ l₃ : List Label} (h : Extends l₁ l₂) (h' : Extends l₂ l₃) :
    Extends l₁ l₃ := ⟨fun e => h'.keeps (h.keeps e), fun n => h'.nodup (h.nodup n)⟩

theorem Numbers.mono (h : Numbers rules rule labels text i) (e : Extends labels labels') :
    Numbers rules rule labels' text i := by
  obtain ⟨l, hm, hi⟩ := h
  exact ⟨l, hm, e.keeps hi⟩

theorem intern_ok {l : Label} (h : intern labels l = (i, labels')) :
    Extends labels labels' ∧ labels'[i]? = some l := by
  unfold intern at h
  split at h
  · next hi =>
    cases h
    obtain ⟨hlt, rfl, -⟩ := List.idxOf?_eq_some_iff.1 hi
    exact ⟨.refl _, List.getElem?_eq_getElem hlt⟩
  · next hi =>
    cases h
    refine ⟨⟨fun e => ?_, fun n => ?_⟩, by simp⟩
    · have := (List.getElem?_eq_some_iff.1 e).1
      rw [List.getElem?_append_left this, e]
    · rw [List.nodup_append]
      refine ⟨n, by simp, fun a ha b hb => ?_⟩
      rw [List.mem_singleton.1 hb]
      rintro rfl
      exact List.idxOf?_eq_none_iff.1 hi ha

theorem number_ok (h : number rules rule labels text = .ok (i, labels')) :
    Extends labels labels' ∧ Numbers rules rule labels' text i := by
  obtain ⟨l, hm, h⟩ := Except.bind_ok.1 h
  obtain ⟨e, hi⟩ := intern_ok (Except.ok.inj h)
  exact ⟨e, l, hm, hi⟩

/-! ## Numbered rules -/

/-- An arc with its label numbered. -/
def NumbersArc (rules : List CompiledRule) (rule : Text) (labels : List Label) (p : Text × Nat)
    (a : Arc) : Prop := a.target = p.2 ∧ Numbers rules rule labels p.1 a.label

/-- The arcs of the `index`-th state numbered in their order; an accepting state has its empty arc
behind them. -/
def NumbersState (rules : List CompiledRule) (rule : Text) (labels : List Label) (index : Nat)
    (state : Dfa.State) (arcs : List Arc) : Prop :=
  ∃ own, List.Forall₂ (NumbersArc rules rule labels) state.arcs own ∧
    arcs = if state.accepting then own ++ [⟨0, index⟩] else own

/-- The states of a rule numbered, and the terminals that it can start with. -/
structure NumbersRule (rules : List CompiledRule) (first : First.Table) (labels : List Label)
    (index : Nat) (rule : CompiledRule) (table : RuleTable) : Prop where
  index_eq : table.index = index
  name_eq : table.name = String.ofList rule.name
  size_eq : table.states.size = rule.states.length
  state : ∀ {k : Nat} {state : Dfa.State}, rule.states[k]? = some state →
    ∃ arcs, table.states[k]? = some arcs ∧ NumbersState rules rule.name labels k state arcs
  of_mem_first : ∀ {i : Nat}, i ∈ table.first →
    ∃ text ∈ First.terminals first rule.name, Numbers rules rule.name labels text i
  mem_first : ∀ {text : Text}, text ∈ First.terminals first rule.name →
    ∃ i ∈ table.first, Numbers rules rule.name labels text i

theorem NumbersArc.mono {p : Text × Nat} {a : Arc} (h : NumbersArc rules rule labels p a)
    (e : Extends labels labels') : NumbersArc rules rule labels' p a := ⟨h.1, h.2.mono e⟩

theorem NumbersState.mono {index : Nat} {state : Dfa.State} {arcs : List Arc}
    (h : NumbersState rules rule labels index state arcs) (e : Extends labels labels') :
    NumbersState rules rule labels' index state arcs := by
  obtain ⟨own, hown, harcs⟩ := h
  exact ⟨own, hown.imp fun _ _ ha => ha.mono e, harcs⟩

theorem numberArcs_ok {arcs : List (Text × Nat)} {own : List Arc}
    (h : numberArcs rules rule labels arcs = .ok (own, labels')) :
    Extends labels labels' ∧ List.Forall₂ (NumbersArc rules rule labels') arcs own := by
  induction arcs generalizing labels own labels' with
  | nil => cases h; exact ⟨.refl _, .nil⟩
  | cons p rest ih =>
    obtain ⟨text, target⟩ := p
    obtain ⟨⟨i, labels₁⟩, hn, h⟩ := Except.bind_ok.1 h
    obtain ⟨⟨more, labels₂⟩, hr, h⟩ := Except.bind_ok.1 h
    cases h
    obtain ⟨e₁, number⟩ := number_ok hn
    obtain ⟨e₂, rest⟩ := ih hr
    exact ⟨e₁.trans e₂, .cons ⟨rfl, number.mono e₂⟩ rest⟩

theorem numberStates_ok {index : Nat} {states : List Dfa.State} {tables : List (List Arc)}
    (h : numberStates rules rule index labels states = .ok (tables, labels')) :
    Extends labels labels' ∧ tables.length = states.length ∧
      ∀ {k state}, states[k]? = some state →
        ∃ arcs, tables[k]? = some arcs ∧
          NumbersState rules rule labels' (index + k) state arcs := by
  induction states generalizing index labels tables labels' with
  | nil => cases h; exact ⟨.refl _, rfl, fun e => by simp at e⟩
  | cons state rest ih =>
    obtain ⟨⟨own, labels₁⟩, ha, h⟩ := Except.bind_ok.1 h
    obtain ⟨⟨more, labels₂⟩, hr, h⟩ := Except.bind_ok.1 h
    cases h
    obtain ⟨e₁, arcs⟩ := numberArcs_ok ha
    obtain ⟨e₂, length, states⟩ := ih hr
    refine ⟨e₁.trans e₂, by simp [length], fun {k s} hs => ?_⟩
    cases k with
    | zero =>
      cases hs
      exact ⟨_, rfl, own, arcs.imp fun _ _ h => h.mono e₂, rfl⟩
    | succ k =>
      obtain ⟨found, hk, hn⟩ := states hs
      exact ⟨found, hk, by rwa [Nat.add_assoc, Nat.add_comm 1] at hn⟩

theorem numberFirst_ok {found indices : List Nat} {texts : List Text}
    (h : numberFirst rules rule labels found texts = .ok (indices, labels')) :
    Extends labels labels' ∧
      (∀ {i}, i ∈ indices → i ∈ found ∨ ∃ text ∈ texts, Numbers rules rule labels' text i) ∧
      (∀ {i}, i ∈ found → i ∈ indices) ∧
      ∀ {text}, text ∈ texts → ∃ i ∈ indices, Numbers rules rule labels' text i := by
  induction texts generalizing labels found with
  | nil => cases h; exact ⟨.refl _, .inl, id, fun h => by simp at h⟩
  | cons text rest ih =>
    obtain ⟨⟨i, labels₁⟩, hn, h⟩ := Except.bind_ok.1 h
    obtain ⟨e₁, number⟩ := number_ok hn
    obtain ⟨e₂, sound, keeps, complete⟩ := ih h
    refine ⟨e₁.trans e₂, fun {j} hj => ?_, fun {j} hj => ?_, fun {t} ht => ?_⟩
    · rcases sound hj with hj | ⟨t, ht, hn⟩
      · rcases Ascending.mem_insert.1 hj with rfl | hj
        · exact .inr ⟨text, List.mem_cons_self, number.mono e₂⟩
        · exact .inl hj
      · exact .inr ⟨t, List.mem_cons_of_mem _ ht, hn⟩
    · exact keeps (Ascending.mem_insert.2 (.inr hj))
    · rcases List.mem_cons.1 ht with rfl | ht
      · exact ⟨i, keeps (Ascending.mem_insert.2 (.inl rfl)), number.mono e₂⟩
      · exact complete ht

theorem numberRules_ok {first : First.Table} {index : Nat} {rs : List CompiledRule}
    {tables : List RuleTable}
    (h : numberRules rules first index labels rs = .ok (tables, labels')) :
    Extends labels labels' ∧ tables.length = rs.length ∧
      ∀ {k r}, rs[k]? = some r →
        ∃ table, tables[k]? = some table ∧ NumbersRule rules first labels' (index + k) r table := by
  induction rs generalizing index labels tables labels' with
  | nil => cases h; exact ⟨.refl _, rfl, fun e => by simp at e⟩
  | cons r rest ih =>
    obtain ⟨⟨states, labels₁⟩, hs, h⟩ := Except.bind_ok.1 h
    obtain ⟨⟨terminals, labels₂⟩, ht, h⟩ := Except.bind_ok.1 h
    obtain ⟨⟨more, labels₃⟩, hr, h⟩ := Except.bind_ok.1 h
    cases h
    obtain ⟨e₁, length, states⟩ := numberStates_ok hs
    obtain ⟨e₂, sound, -, complete⟩ := numberFirst_ok ht
    obtain ⟨e₃, lengths, tables⟩ := ih hr
    refine ⟨(e₁.trans e₂).trans e₃, by simp [lengths], fun {k q} hq => ?_⟩
    cases k with
    | zero =>
      cases hq
      refine ⟨_, rfl, ⟨rfl, rfl, length, fun {k state} hk => ?_, fun hi => ?_, fun ht => ?_⟩⟩
      · obtain ⟨arcs, ha, hn⟩ := states hk
        rw [Nat.zero_add] at hn
        exact ⟨arcs, by simpa using ha, hn.mono (e₂.trans e₃)⟩
      · rcases sound hi with hi | ⟨text, ht, hn⟩
        · simp at hi
        · exact ⟨text, ht, hn.mono e₃⟩
      · obtain ⟨i, hi, hn⟩ := complete ht
        exact ⟨i, hi, hn.mono e₃⟩
    | succ k =>
      obtain ⟨table, hk, hn⟩ := tables hq
      exact ⟨table, hk, by rwa [Nat.add_assoc, Nat.add_comm 1] at hn⟩

/-- The tables of compiled rules are the rules with their labels numbered, the empty label first. -/
structure NumbersAll (rules : List CompiledRule) (first : First.Table) (g : Grammar) : Prop where
  nodup : g.labels.toList.Nodup
  empty : g.label? 0 = some .empty
  size_eq : g.rules.size = rules.length
  rule : ∀ {k : Nat} {r : CompiledRule}, rules[k]? = some r →
    ∃ table, g.rule? k = some table ∧ NumbersRule rules first g.labels.toList k r table

theorem ofCompiled_ok {g : Grammar} (h : ofCompiled rules = .ok g) :
    ∃ first, First.table rules = .ok first ∧ NumbersAll rules first g := by
  unfold ofCompiled at h
  split at h
  · cases h
  obtain ⟨first, hf, h⟩ := Except.bind_ok.1 h
  obtain ⟨⟨tables, labels⟩, hr, h⟩ := Except.bind_ok.1 h
  cases h
  obtain ⟨e, length, tables⟩ := numberRules_ok hr
  refine ⟨first, hf, e.nodup (by simp), ?_, by simpa using length, fun {k r} hk => ?_⟩
  · simpa [label?] using e.keeps (show [Label.empty][0]? = some .empty from rfl)
  · obtain ⟨table, ht, hn⟩ := tables hk
    rw [Nat.zero_add] at hn
    exact ⟨table, by simpa [rule?] using ht, hn⟩

/-! ## What the tables mean -/

variable {g : Grammar} {r sub : RuleTable} {a : Arc} {l : Nat}

/-- The arc is labelled with this rule. -/
def Enters (g : Grammar) (a : Arc) (sub : RuleTable) : Prop :=
  ∃ j, g.label? a.label = some (.rule j) ∧ g.rule? j = some sub

/-- The arc takes a label: by carrying it, or by a rule that can start with it. -/
def Takes (g : Grammar) (a : Arc) (l : Nat) : Prop :=
  a.label = l ∨ ∃ sub, g.Enters a sub ∧ l ∈ sub.first

/-- The tables have a rule, the labels are numbered without repetition, an arc carries the empty
label, a terminal or a rule, the terminals of a rule are right, and no rule can start with itself,
not even by way of others. -/
structure Consistent (g : Grammar) : Prop where
  start : ∃ r, g.start? = some r
  empty : g.label? 0 = some .empty
  distinct : ∀ {i j : Nat} {l : Label}, g.label? i = some l → g.label? j = some l → i = j
  label : ∀ {r : RuleTable} {s : Nat} {a : Arc}, r ∈ g.rules → a ∈ r.arcs s →
    a.label = 0 ∨ g.isTerminal a.label = true ∨ ∃ sub, g.Enters a sub
  mem_first : ∀ {r : RuleTable} {l : Nat}, r ∈ g.rules →
    (l ∈ r.first ↔ g.isTerminal l = true ∧ ∃ a ∈ r.arcs 0, g.Takes a l)
  rank : ∃ rank : RuleTable → Nat, (∀ r ∈ g.rules, rank r < g.rules.size) ∧
    ∀ r ∈ g.rules, ∀ a ∈ r.arcs 0, ∀ sub, g.Enters a sub → rank sub < rank r

theorem Enters.mem (h : g.Enters a sub) : sub ∈ g.rules := by
  obtain ⟨j, -, h⟩ := h
  exact Array.mem_of_getElem? h

theorem Enters.not_terminal (h : g.Enters a sub) : g.isTerminal a.label = false := by
  obtain ⟨j, h, -⟩ := h
  rw [isTerminal, h]

/-- An arc labelled with a rule takes the terminals that the rule can start with. -/
theorem Enters.takes_iff (h : g.Enters a sub) (hl : g.isTerminal l = true) :
    g.Takes a l ↔ l ∈ sub.first := by
  refine ⟨?_, fun hl => .inr ⟨sub, h, hl⟩⟩
  rintro (rfl | ⟨sub', ⟨j', hj', hs'⟩, hl'⟩)
  · rw [h.not_terminal] at hl; cases hl
  · obtain ⟨j, hj, hs⟩ := h
    rw [hj] at hj'; cases hj'
    rw [hs] at hs'; cases hs'
    exact hl'

/-- An arc labelled with a terminal takes that terminal. -/
theorem takes_terminal (h : g.isTerminal a.label = true) : g.Takes a l ↔ l = a.label := by
  refine ⟨?_, fun hl => .inl hl.symm⟩
  rintro (rfl | ⟨sub, hsub, -⟩)
  · rfl
  · rw [hsub.not_terminal] at h; cases h

/-- The empty arc takes no terminal. -/
theorem Consistent.not_takes (ok : g.Consistent) (h : a.label = 0) (hl : g.isTerminal l = true) :
    ¬ g.Takes a l := by
  rintro (rfl | ⟨sub, ⟨j, hj, -⟩, -⟩)
  · rw [h, isTerminal, ok.empty] at hl; cases hl
  · rw [h, ok.empty] at hj; cases hj

/-- The number found for a label is that label's. -/
theorem label?_of_idxOf? {x : Label} (h : g.labels.idxOf? x = some i) : g.label? i = some x := by
  have found : g.labels.toList.idxOf? x = some i := by
    rw [← List.idxOf?_toArray, Array.toArray_toList]
    exact h
  obtain ⟨hlt, hx, -⟩ := List.idxOf?_eq_some_iff.1 found
  rw [label?, ← Array.getElem?_toList, List.getElem?_eq_getElem hlt, hx]

/-- The number of a label is found again. -/
theorem Consistent.idxOf? (ok : g.Consistent) {x : Label} (h : g.label? i = some x) :
    g.labels.idxOf? x = some i := by
  cases hx : g.labels.idxOf? x with
  | none => exact absurd (Array.mem_of_getElem? h) (Array.idxOf?_eq_none_iff.1 hx)
  | some j => rw [ok.distinct (label?_of_idxOf? hx) h]

/-! ## Tables of a description -/

/-- What a text means: a word is the name of a rule or else of a token type, another text is the
spelling of a keyword or an operator, in quotes. -/
inductive Means (rules : List CompiledRule) (text : Text) : Label → Prop
  | rule {j : Nat} (word : Description.StartsWord text)
      (h : rules.findIdx? (·.name == text) = some j) : Means rules text (.rule j)
  | tokenType {kind : TokenKind} (word : Description.StartsWord text)
      (other : rules.findIdx? (·.name == text) = none)
      (h : TokenKind.ofTerminal? (String.ofList text) = some kind) : Means rules text (.token kind)
  | keyword {k : Keyword} (literal : ¬ Description.StartsWord text)
      (h : Keyword.ofText? (unquote text) = some k) : Means rules text (.keyword k)
  | operator {o : Operator} (literal : ¬ Description.StartsWord text)
      (h : Operator.ofText? (unquote text) = some o) : Means rules text (.token (.op o))

theorem means_of_meaning {l : Label} (h : meaning rules rule text = .ok l) :
    Means rules text l := by
  unfold meaning at h
  split at h
  · next word =>
    split at h
    · next hj => cases h; exact .rule word hj
    · next other =>
      split at h
      · next hk => cases h; exact .tokenType word other hk
      · cases h
  · next literal =>
    dsimp only at h
    split at h
    · split at h
      · next hk => cases h; exact .keyword literal hk
      · cases h
    · split at h
      · next ho => cases h; exact .operator literal ho
      · cases h

theorem Means.rule_getElem? {j : Nat} (h : Means rules text (.rule j)) :
    ∃ sub, rules[j]? = some sub ∧ sub.name = text := by
  cases h with
  | rule _ hj =>
    obtain ⟨hlt, hname, -⟩ := List.findIdx?_eq_some_iff_getElem.1 hj
    exact ⟨_, List.getElem?_eq_getElem hlt, beq_iff_eq.1 hname⟩

/-- A text that means something is the name of the rule that it means, or names no rule and means a
terminal. -/
theorem meaning_cases {l : Label} (words : ∀ r ∈ rules, Description.StartsWord r.name)
    (h : meaning rules rule text = .ok l) :
    (∃ j sub, l = .rule j ∧ rules[j]? = some sub ∧ sub.name = text) ∨
      (¬ First.IsRule rules text ∧ ((∃ k, l = .keyword k) ∨ ∃ kind, l = .token kind)) := by
  have unnamed (literal : ¬ Description.StartsWord text) : ¬ First.IsRule rules text := by
    rw [First.IsRule, List.find?_isSome]
    rintro ⟨r, hr, hname⟩
    exact literal (beq_iff_eq.1 hname ▸ words r hr)
  cases means_of_meaning h with
  | rule word hj =>
    obtain ⟨sub, hj, hname⟩ := (Means.rule word hj).rule_getElem?
    exact .inl ⟨_, sub, rfl, hj, hname⟩
  | @tokenType kind _ other _ =>
    refine .inr ⟨?_, .inr ⟨kind, rfl⟩⟩
    rw [First.IsRule, List.find?_isSome]
    rintro ⟨r, hr, hname⟩
    have := List.findIdx?_eq_none_iff.1 other r hr
    rw [hname] at this; cases this
  | keyword literal _ => exact .inr ⟨unnamed literal, .inl ⟨_, rfl⟩⟩
  | operator literal _ => exact .inr ⟨unnamed literal, .inr ⟨_, rfl⟩⟩

/-- What a text means does not depend on the rule that it stands in. -/
theorem meaning_unique {rule' : Text} {l l' : Label} (h : meaning rules rule text = .ok l)
    (h' : meaning rules rule' text = .ok l') : l = l' := by
  have same : (meaning rules rule text).toOption = (meaning rules rule' text).toOption := by
    unfold meaning
    by_cases word : text.head?.any Description.isWordStart = true
    · rw [if_pos word, if_pos word]
      cases rules.findIdx? (·.name == text) with
      | some index => rfl
      | none => cases TokenKind.ofTerminal? (String.ofList text) <;> rfl
    · rw [if_neg word, if_neg word]
      by_cases letter : (unquote text).head?.any Text.isAlphabetic = true
      · simp only [if_pos letter]
        cases Keyword.ofText? (unquote text) <;> rfl
      · simp only [if_neg letter]
        cases Operator.ofText? (unquote text) <;> rfl
  rw [h, h'] at same
  exact Option.some.inj same

theorem Numbers.unique {rule' : Text} {i j : Nat} (nodup : labels.Nodup)
    (h : Numbers rules rule labels text i) (h' : Numbers rules rule' labels text j) : i = j := by
  obtain ⟨l, hm, hi⟩ := h
  obtain ⟨l', hm', hj⟩ := h'
  cases meaning_unique hm hm'
  obtain ⟨hlt, -⟩ := List.getElem?_eq_some_iff.1 hi
  exact (List.getElem?_inj hlt nodup).1 (hi.trans hj.symm)

theorem NumbersRule.of_mem_arcs {first : First.Table} {index s : Nat} {rule : CompiledRule}
    (h : NumbersRule rules first labels index rule r) (ha : a ∈ r.arcs s) :
    ∃ state, rule.states[s]? = some state ∧
      ((∃ p ∈ state.arcs, NumbersArc rules rule.name labels p a) ∨
        (state.accepting = true ∧ a = ⟨0, s⟩)) := by
  unfold RuleTable.arcs at ha
  cases hs : r.states[s]? with
  | none => rw [hs] at ha; simp at ha
  | some arcs =>
    obtain ⟨hlt, -⟩ := Array.getElem?_eq_some_iff.1 hs
    rw [h.size_eq] at hlt
    obtain ⟨_, hs', own, hown, rfl⟩ := h.state (List.getElem?_eq_getElem hlt)
    refine ⟨_, List.getElem?_eq_getElem hlt, ?_⟩
    rw [hs', Option.getD_some] at ha
    have numbered : a ∈ own → ∃ p ∈ (rule.states[s]).arcs, NumbersArc rules rule.name labels p a :=
      fun ha => (List.forall₂_iff_get.1 hown).elim fun length numbers => by
        obtain ⟨k, hk, rfl⟩ := List.getElem_of_mem ha
        exact ⟨_, List.getElem_mem (length ▸ hk), numbers k (length ▸ hk) hk⟩
    split at ha
    · next accepting =>
      rcases List.mem_append.1 ha with ha | ha
      · exact .inl (numbered ha)
      · exact .inr ⟨accepting, List.mem_singleton.1 ha⟩
    · exact .inl (numbered ha)

theorem NumbersRule.exists_arc {first : First.Table} {index s : Nat} {rule : CompiledRule}
    {state : Dfa.State} {p : Text × Nat} (h : NumbersRule rules first labels index rule r)
    (hs : rule.states[s]? = some state) (hp : p ∈ state.arcs) :
    ∃ a ∈ r.arcs s, NumbersArc rules rule.name labels p a := by
  obtain ⟨_, hs', own, hown, rfl⟩ := h.state hs
  obtain ⟨length, numbers⟩ := List.forall₂_iff_get.1 hown
  obtain ⟨k, hk, rfl⟩ := List.getElem_of_mem hp
  refine ⟨own[k], ?_, numbers k hk (length ▸ hk)⟩
  rw [RuleTable.arcs, hs', Option.getD_some]
  split
  · exact List.mem_append_left _ (List.getElem_mem _)
  · exact List.getElem_mem _

theorem mem_initialLabels {rule : CompiledRule} :
    text ∈ rule.initialLabels ↔
      ∃ state, rule.states[0]? = some state ∧ ∃ p ∈ state.arcs, p.1 = text := by
  unfold CompiledRule.initialLabels
  cases rule.states with
  | nil => simp
  | cons state rest => simp

/-- An arc carries the empty label or the label of a text of the rule. -/
theorem NumbersRule.label_cases {first : First.Table} {index s : Nat} {rule : CompiledRule}
    (h : NumbersRule rules first labels index rule r) (ha : a ∈ r.arcs s) :
    a.label = 0 ∨ ∃ state, rule.states[s]? = some state ∧ ∃ p ∈ state.arcs,
      Numbers rules rule.name labels p.1 a.label := by
  obtain ⟨state, hs, ⟨p, hp, -, hn⟩ | ⟨-, rfl⟩⟩ := h.of_mem_arcs ha
  · exact .inr ⟨state, hs, p, hp, hn⟩
  · exact .inl rfl

/-- The tables were made from named rules, no two of them with one name. -/
structure Made (rules : List CompiledRule) (found : First.Table) (g : Grammar) : Prop where
  nonempty : rules ≠ []
  words : ∀ r ∈ rules, Description.StartsWord r.name
  distinct : (rules.map (·.name)).Nodup
  first : First.table rules = .ok found
  numbers : NumbersAll rules found g

namespace Made

variable {found : First.Table} {name : Text} (made : Made rules found g)

include made

theorem rule_at {j : Nat} (h : g.rule? j = some r) :
    ∃ rule, rules[j]? = some rule ∧ NumbersRule rules found g.labels.toList j rule r := by
  obtain ⟨hlt, -⟩ := Array.getElem?_eq_some_iff.1 h
  rw [made.numbers.size_eq] at hlt
  obtain ⟨_, h', numbers⟩ := made.numbers.rule (List.getElem?_eq_getElem hlt)
  rw [h] at h'
  cases h'
  exact ⟨_, List.getElem?_eq_getElem hlt, numbers⟩

theorem mem {r : RuleTable} (h : r ∈ g.rules) :
    ∃ j rule, rules[j]? = some rule ∧ NumbersRule rules found g.labels.toList j rule r := by
  obtain ⟨j, h⟩ := Array.getElem?_of_mem h
  exact ⟨j, made.rule_at h⟩

/-- The number of a text is that of the rule that the text names, or that of a terminal. -/
theorem label_cases (h : Numbers rules name g.labels.toList text i) :
    (∃ j rule sub, rule ∈ rules ∧ rule.name = text ∧ g.label? i = some (.rule j) ∧
      g.rule? j = some sub ∧ NumbersRule rules found g.labels.toList j rule sub) ∨
    (¬ First.IsRule rules text ∧ g.isTerminal i = true) := by
  obtain ⟨l, hm, hi⟩ := h
  rw [Array.getElem?_toList] at hi
  rcases meaning_cases made.words hm with ⟨j, rule, rfl, hj, hname⟩ | ⟨hnot, kind⟩
  · obtain ⟨sub, hsub, numbers⟩ := made.numbers.rule hj
    exact .inl ⟨j, rule, sub, List.mem_of_getElem? hj, hname, hi, hsub, numbers⟩
  · refine .inr ⟨hnot, ?_⟩
    rcases kind with ⟨k, rfl⟩ | ⟨kind, rfl⟩ <;> rw [isTerminal, label?, hi]

theorem isRule {rule : CompiledRule} (h : rule ∈ rules) : First.IsRule rules rule.name := by
  rw [First.IsRule, First.find?_name made.distinct h]
  rfl

theorem not_terminal_zero : g.isTerminal 0 = false := by
  rw [isTerminal, made.numbers.empty]

/-- The terminals of a rule of the description, by the arcs out of its first state. -/
theorem mem_first {l : Nat} (h : r ∈ g.rules) :
    l ∈ r.first ↔ g.isTerminal l = true ∧ ∃ a ∈ r.arcs 0, g.Takes a l := by
  obtain ⟨index, rule, hrule, numbers⟩ := made.mem h
  have hrule := List.mem_of_getElem? hrule
  have nodup := made.numbers.nodup
  constructor
  · intro hl
    obtain ⟨text, htext, hnum⟩ := numbers.of_mem_first hl
    obtain ⟨label, hlabel, hset⟩ :=
      (First.mem_terminals made.distinct made.first hrule text).1 htext
    obtain ⟨state, hs, p, hp, rfl⟩ := mem_initialLabels.1 hlabel
    obtain ⟨a, ha, -, han⟩ := numbers.exists_arc hs hp
    refine ⟨?_, a, ha, ?_⟩
    · have hnot := First.not_isRule_of_mem_terminals made.distinct made.first hrule htext
      rcases made.label_cases hnum with ⟨j, rule', sub, hr', hname, -⟩ | ⟨-, hterm⟩
      · exact absurd (hname ▸ made.isRule hr') hnot
      · exact hterm
    · rcases made.label_cases han with ⟨j, rule', sub, hr', hname, hlab, hsub, numbers'⟩ | ⟨hnot, -⟩
      · right
        rw [First.labelSet, if_pos (hname ▸ made.isRule hr'), ← hname] at hset
        obtain ⟨i, hi, hin⟩ := numbers'.mem_first hset
        exact ⟨sub, ⟨j, hlab, hsub⟩, hnum.unique nodup hin ▸ hi⟩
      · left
        rw [First.labelSet, if_neg hnot, List.mem_singleton] at hset
        rw [hset] at hnum
        exact han.unique nodup hnum
  · rintro ⟨hterm, a, ha, htakes⟩
    -- a number is that of one text only if the texts mean the same, so the text is looked up
    have complete {text n : Text} (hset : text ∈ First.terminals found rule.name)
        (hnum : Numbers rules n g.labels.toList text l) : l ∈ r.first := by
      obtain ⟨i, hi, hin⟩ := numbers.mem_first hset
      exact hnum.unique nodup hin ▸ hi
    have initial {text label : Text} (hlabel : label ∈ rule.initialLabels)
        (hset : text ∈ First.labelSet rules found label) :
        text ∈ First.terminals found rule.name :=
      (First.mem_terminals made.distinct made.first hrule text).2 ⟨label, hlabel, hset⟩
    rcases numbers.label_cases ha with hzero | ⟨state, hs, p, hp, hn⟩
    · -- the empty label takes nothing
      rcases htakes with rfl | ⟨sub, ⟨j, hj, -⟩, -⟩
      · rw [hzero, made.not_terminal_zero] at hterm; cases hterm
      · rw [hzero, made.numbers.empty] at hj; cases hj
    have hlabel : p.1 ∈ rule.initialLabels := mem_initialLabels.2 ⟨state, hs, p, hp, rfl⟩
    rcases made.label_cases hn with ⟨j, rule', sub, hr', hname, hj, hsub, numbers'⟩ | ⟨hnot, hterm'⟩
    · rcases htakes with rfl | ⟨sub', ⟨j', hj', hsub'⟩, hl⟩
      · rw [isTerminal, hj] at hterm; cases hterm
      · rw [hj] at hj'; cases hj'
        rw [hsub] at hsub'; cases hsub'
        obtain ⟨text, htext, hnum⟩ := numbers'.of_mem_first hl
        refine complete (initial hlabel ?_) hnum
        rwa [First.labelSet, if_pos (hname ▸ made.isRule hr'), ← hname]
    · rcases htakes with rfl | ⟨sub, hsub, -⟩
      · refine complete (initial hlabel ?_) hn
        rw [First.labelSet, if_neg hnot]; exact List.mem_singleton_self _
      · rw [hsub.not_terminal] at hterm'; cases hterm'

/-- The numbers of rules that the rules can be ranked by: a rule ranks above those that it can start
with. -/
theorem rank : ∃ rank : RuleTable → Nat, ∀ r ∈ g.rules, ∀ a ∈ r.arcs 0, ∀ sub, g.Enters a sub →
    rank sub < rank r := by
  obtain ⟨rank, ranked⟩ := First.table_rank made.distinct made.first
  refine ⟨fun r => rank r.name.toList, fun r hr a ha sub hsub => ?_⟩
  obtain ⟨index, rule, hrule, numbers⟩ := made.mem hr
  obtain ⟨j, hj, hsub⟩ := hsub
  rcases numbers.label_cases ha with hzero | ⟨state, hs, p, hp, hn⟩
  · rw [hzero, made.numbers.empty] at hj; cases hj
  · rcases made.label_cases hn with ⟨j', rule', sub', hr', hname, hj', hsub', numbers'⟩ | ⟨-, hterm⟩
    · rw [hj] at hj'; cases hj'
      rw [hsub] at hsub'; cases hsub'
      have := ranked rule (List.mem_of_getElem? hrule) p.1
        (mem_initialLabels.2 ⟨state, hs, p, hp, rfl⟩) (hname ▸ made.isRule hr')
      simpa only [numbers.name_eq, numbers'.name_eq, String.toList_ofList, hname] using this
    · rw [isTerminal, hj] at hterm; cases hterm

end Made

/-- The rank of a rule among the rules: how many rank below it. -/
def place (rank : RuleTable → Nat) (rs : List RuleTable) (r : RuleTable) : Nat :=
  rs.countP fun q => rank q < rank r

theorem place_lt_length {rank : RuleTable → Nat} {rs : List RuleTable} (h : r ∈ rs) :
    place rank rs r < rs.length :=
  List.countP_lt_length_iff.2 ⟨r, h, by simp⟩

theorem place_lt_place {rank : RuleTable → Nat} {rs : List RuleTable} (h : sub ∈ rs)
    (lower : rank sub < rank r) : place rank rs sub < place rank rs r := by
  have below : place rank rs sub =
      (rs.filter fun q => rank q < rank r).countP fun q => rank q < rank sub := by
    rw [List.countP_filter, place]
    refine List.countP_congr fun q _ => ?_
    simp only [Bool.and_eq_true, decide_eq_true_eq]
    omega
  have all : place rank rs r = (rs.filter fun q => rank q < rank r).length :=
    List.countP_eq_length_filter
  rw [below, all]
  exact List.countP_lt_length_iff.2 ⟨sub, by simp [h, lower], by simp⟩

/-- Tables made from named rules, no two of them with one name, are consistent. -/
theorem Made.consistent {found : First.Table} (made : Made rules found g) : Consistent g := by
  have distinct {i j : Nat} {l : Label} (hi : g.label? i = some l) (hj : g.label? j = some l) :
      i = j := by
    rw [label?, ← Array.getElem?_toList] at hi hj
    obtain ⟨hlt, -⟩ := List.getElem?_eq_some_iff.1 hi
    exact (List.getElem?_inj hlt made.numbers.nodup).1 (hi.trans hj.symm)
  have label {r : RuleTable} {s : Nat} {a : Arc} (hr : r ∈ g.rules) (ha : a ∈ r.arcs s) :
      a.label = 0 ∨ g.isTerminal a.label = true ∨ ∃ sub, g.Enters a sub := by
    obtain ⟨index, rule, hrule, numbers⟩ := made.mem hr
    rcases numbers.label_cases ha with hzero | ⟨state, hs, p, hp, hn⟩
    · exact .inl hzero
    rcases made.label_cases hn with ⟨j, rule', sub, -, -, hj, hsub, -⟩ | ⟨-, hterm⟩
    · exact .inr (.inr ⟨sub, j, hj, hsub⟩)
    · exact .inr (.inl hterm)
  obtain ⟨rank, ranked⟩ := made.rank
  refine ⟨?_, made.numbers.empty, distinct, label, made.mem_first,
    place rank g.rules.toList, fun r hr => ?_, fun r hr a ha sub hsub => ?_⟩
  · obtain ⟨rule, hrule⟩ := List.exists_mem_of_ne_nil _ made.nonempty
    have hlt := List.length_pos_of_mem hrule
    obtain ⟨r, hr, -⟩ := made.numbers.rule (List.getElem?_eq_getElem hlt)
    exact ⟨r, hr⟩
  · exact place_lt_length (Array.mem_toList_iff.2 hr)
  · exact place_lt_place (Array.mem_toList_iff.2 hsub.mem) (ranked r hr a ha sub hsub)

/-- The tables of a description are made from its rules. -/
theorem made_of_ofLines {lines : List Text} (h : ofLines lines = .ok g) :
    ∃ rs found, Description.rules lines = .ok rs ∧ Made (rs.map .ofRule) found g := by
  obtain ⟨rs, hrs, h⟩ := Except.bind_ok.1 h
  obtain ⟨words, distinct⟩ := Description.rules_named hrs
  obtain ⟨found, first, numbers⟩ := ofCompiled_ok h
  have names : (rs.map CompiledRule.ofRule).map (·.name) = rs.map (·.name) := by
    rw [List.map_map]; rfl
  refine ⟨rs, found, hrs, ?_, fun r hr => ?_, names ▸ distinct, first, numbers⟩
  · rintro hnil
    rw [hnil] at h
    cases h
  · obtain ⟨rule, hrule, rfl⟩ := List.mem_map.1 hr
    exact words rule hrule

/-- The tables of a description are consistent. -/
theorem consistent_of_ofLines {lines : List Text} (h : ofLines lines = .ok g) : Consistent g := by
  obtain ⟨_, _, _, made⟩ := made_of_ofLines h
  exact made.consistent

end Caret.Grammar

import Mathlib.Logic.Relation
import Caret.Proofs.FirstSets
/-!
# Which rules the search for first terminals refuses

What a rule can start with is told by chains of rules, each of which has the next among the labels
of its first state. The search follows such chains, and the rules that it works on are one: so a
rule that is found to be worked on can start with itself. As these rules are all different, the
levels that the search is given are enough.

Results:
* `Begins`, `Yields`: the terminals of a rule and of a label, by chains.
* `Found.begins`: the terminals found for a rule are those.
* `Refutes`: the error is about rules that do what it says.
* `Visited.refutes`, `find_error`: an error of the check and an error of the search are right.
* `table_error`: there is no table only if the error that comes instead is right.
* `table_exact`: when there is a table, and what is in it.
-/
namespace Caret.First

variable {rules path : List CompiledRule} {rule sub : CompiledRule} {table table' : Table}
  {name label t : Text} {e : GrammarError}

/-! ## Terminals by chains -/

/-- Along some chain the rule can start with a rule that has this terminal at its first state. -/
def Begins (rules : List CompiledRule) (rule : CompiledRule) (t : Text) : Prop :=
  ∃ sub, Relation.ReflTransGen (Starts rules) rule sub ∧ t ∈ sub.initialLabels ∧ ¬ IsRule rules t

/-- The label of an arc leads to the terminal: it is the terminal, or a rule that can start with
it. -/
inductive Yields (rules : List CompiledRule) : (label t : Text) → Prop
  | terminal {t : Text} (h : ¬ IsRule rules t) : Yields rules t t
  | rule {label t : Text} {sub : CompiledRule} (named : rules.find? (·.name == label) = some sub)
      (h : Begins rules sub t) : Yields rules label t

theorem name_of_find? (h : rules.find? (·.name == label) = some sub) : sub.name = label := by
  simpa using List.find?_some h

/-- A rule can start with what the labels of its first state lead to. -/
theorem begins_iff : Begins rules rule t ↔ ∃ label ∈ rule.initialLabels, Yields rules label t := by
  constructor
  · rintro ⟨sub, chain, mem, terminal⟩
    rcases chain.cases_head with rfl | ⟨next, starts, chain⟩
    · exact ⟨t, mem, .terminal terminal⟩
    · exact ⟨next.name, starts.1, .rule starts.2 ⟨sub, chain, mem, terminal⟩⟩
  · rintro ⟨label, hl, yields⟩
    cases yields with
    | terminal h => exact ⟨rule, .refl, hl, h⟩
    | rule named h =>
      obtain ⟨sub, chain, mem, terminal⟩ := h
      obtain rfl := name_of_find? named
      exact ⟨sub, chain.head ⟨hl, named⟩, mem, terminal⟩

/-- What is found for a label is what it leads to, if that is so for the rule that it names. -/
theorem mem_labelSet (h : ∀ {sub}, rules.find? (·.name == label) = some sub →
    (t ∈ terminals table label ↔ Begins rules sub t)) :
    t ∈ labelSet rules table label ↔ Yields rules label t := by
  unfold labelSet
  split
  · next named =>
    obtain ⟨sub, found⟩ := Option.isSome_iff_exists.1 named
    rw [h found]
    constructor
    · exact .rule found
    · intro yields
      cases yields with
      | terminal no => exact absurd named no
      | rule found' begins =>
        rw [found] at found'
        cases found'
        exact begins
  · next no =>
    rw [List.mem_singleton]
    constructor
    · rintro rfl
      exact .terminal no
    · intro yields
      cases yields with
      | terminal => rfl
      | rule found => exact absurd (by simp [IsRule, found]) no

/-- The terminals found for a finished rule are those that it can start with. -/
theorem Found.begins (found : Found rules table) (finished : Finished table name)
    (named : rules.find? (·.name == name) = some rule) :
    t ∈ terminals table name ↔ Begins rules rule t := by
  obtain ⟨rank, ranked⟩ := found.rank
  induction hn : rank name using Nat.strong_induction_on generalizing name rule with
  | _ n ih =>
    rw [found.mem finished named, begins_iff]
    refine exists_congr fun label => and_congr_right fun hl => mem_labelSet fun {sub} hsub => ?_
    have isRule : IsRule rules label := by simp [IsRule, hsub]
    exact ih _ (hn ▸ ranked finished named label hl isRule)
      (found.sub finished named label hl isRule) hsub rfl

theorem Found.yields (found : Found rules table) (finished : IsRule rules label →
    Finished table label) : t ∈ labelSet rules table label ↔ Yields rules label t :=
  mem_labelSet fun hsub => found.begins (finished (by simp [IsRule, hsub])) hsub

/-! ## Errors -/

/-- What the error says is true of the rules: a chain leads from the rule back to it, or two labels
of its first state lead to the terminal. -/
inductive Refutes (rules : List CompiledRule) : GrammarError → Prop
  | leftRecursion {rule : CompiledRule} (known : rule ∈ rules)
      (back : Relation.TransGen (Starts rules) rule rule) : Refutes rules (.leftRecursion rule.name)
  | ambiguous {rule : CompiledRule} {a b t : Text} (known : rule ∈ rules)
      (labels : [a, b].Sublist rule.initialLabels) (first : Yields rules a t)
      (second : Yields rules b t) : Refutes rules (.ambiguous rule.name t a b)

theorem shared?_some {owners : List (Text × Text)} {set : List Text} {owner : Text}
    (h : shared? owners set = some (t, owner)) : t ∈ set ∧ (t, owner) ∈ owners := by
  induction set with
  | nil => cases h
  | cons u set ih =>
    rw [shared?] at h
    split at h
    · next owned =>
      cases h
      obtain ⟨before, after, rfl, -⟩ := List.lookup_eq_some_iff.1 owned
      exact ⟨List.mem_cons_self, by simp⟩
    · exact ⟨List.mem_cons_of_mem _ (ih h).1, (ih h).2⟩

/-- Where the check fails, the terminal is in two of the sets, or in one and has an owner. -/
theorem checkDisjoint_error {owners : List (Text × Text)} {sources : List (Text × List Text)}
    (h : checkDisjoint name owners sources = .error e) :
    ∃ t a b set, e = .ambiguous name t a b ∧ t ∈ set ∧
      ((t, a) ∈ owners ∧ (b, set) ∈ sources ∨
        ∃ set', [(a, set'), (b, set)].Sublist sources ∧ t ∈ set') := by
  induction sources generalizing owners with
  | nil => cases h
  | cons source rest ih =>
    rw [checkDisjoint] at h
    split at h
    · next t owner shared =>
      cases h
      obtain ⟨own, owned⟩ := shared?_some shared
      exact ⟨t, owner, source.1, source.2, rfl, own, .inl ⟨owned, List.mem_cons_self⟩⟩
    · obtain ⟨t, a, b, set, rfl, mem, ⟨owned, later⟩ | ⟨set', pair, mem'⟩⟩ := ih h
      · refine ⟨t, a, b, set, rfl, mem, ?_⟩
        rcases List.mem_append.1 owned with owned | owned
        · obtain ⟨u, own, same⟩ := List.mem_map.1 owned
          cases same
          exact .inr ⟨source.2, (List.singleton_sublist.2 later).cons_cons source, own⟩
        · exact .inl ⟨owned, List.mem_cons_of_mem _ later⟩
      · exact ⟨t, a, b, set, rfl, mem, .inr ⟨set', pair.cons source, mem'⟩⟩

/-- Where the terminals of the labels of a rule do not pass the check, two labels share one. -/
theorem Visited.refutes {state : Table × List (Text × List Text)}
    (visited : Visited rules table rule.initialLabels state) (known : rule ∈ rules)
    (h : checkDisjoint rule.name [] state.2 = .error e) : Refutes rules e := by
  obtain ⟨t, a, b, set, rfl, mem, ⟨owned, -⟩ | ⟨set', pair, mem'⟩⟩ := checkDisjoint_error h
  · cases owned
  · rw [visited.sources] at pair
    obtain ⟨labels, sub, hpair⟩ := List.sublist_map_iff.1 pair
    obtain ⟨a', b', rfl⟩ : ∃ a' b', labels = [a', b'] :=
      List.length_eq_two.1 (by simpa using (congrArg List.length hpair).symm)
    simp only [List.map_cons, List.map_nil, List.cons.injEq, Prod.mk.injEq, and_true] at hpair
    obtain ⟨⟨rfl, rfl⟩, rfl, rfl⟩ := hpair
    have yields {label : Text} (hl : label ∈ [a, b]) :=
      visited.found.yields (t := t) (visited.finished label (sub.subset hl))
    exact .ambiguous known sub ((yields (by simp)).1 mem') ((yields (by simp)).1 mem)

/-! ## The rules that are worked on -/

/-- The rules that are worked on are all different, and each leads to the rule that comes next. -/
structure Working (rules : List CompiledRule) (table : Table) (path : List CompiledRule)
    (rule : CompiledRule) : Prop where
  known : ∀ r ∈ path, r ∈ rules
  nodup : path.Nodup
  opened : ∀ r ∈ path, table.lookup r.name = some none
  only : ∀ {name}, table.lookup name = some none → ∃ r ∈ path, r.name = name
  leads : ∀ r ∈ path, Relation.TransGen (Starts rules) r rule

/-- A rule that has no entry is none of them. -/
theorem Working.new (h : Working rules table path rule) (fresh : table.lookup rule.name = none) :
    (rule :: path).Nodup := by
  refine List.nodup_cons.2 ⟨fun own => ?_, h.nodup⟩
  rw [h.opened rule own] at fresh
  cases fresh

/-- There are fewer of them than rules. -/
theorem Working.length_lt (h : Working rules table path rule) (known : rule ∈ rules)
    (fresh : table.lookup rule.name = none) : path.length < rules.length :=
  (List.subperm_of_subset (h.new fresh) (List.cons_subset.2 ⟨known, h.known⟩)).length_le

/-- From there the search may go on to a rule that comes next. -/
theorem Working.enter (h : Working rules table path rule) (known : rule ∈ rules)
    (fresh : table.lookup rule.name = none) (grows : Grows ((rule.name, none) :: table) table')
    (starts : Starts rules rule sub) : Working rules table' (rule :: path) sub := by
  refine ⟨List.forall_mem_cons.2 ⟨known, h.known⟩, h.new fresh, ?_, fun {name} entry => ?_, ?_⟩
  · refine List.forall_mem_cons.2 ⟨grows.keeps List.lookup_cons_self, fun r hr => ?_⟩
    have other : r.name ≠ rule.name := by
      intro same
      rw [← same, h.opened r hr] at fresh
      cases fresh
    exact grows.keeps ((lookup_cons_ne other).trans (h.opened r hr))
  · have before := grows.opens entry
    by_cases same : name = rule.name
    · exact ⟨rule, List.mem_cons_self, same.symm⟩
    · obtain ⟨r, hr, named⟩ := h.only ((lookup_cons_ne same).symm.trans before)
      exact ⟨r, List.mem_cons_of_mem _ hr, named⟩
  · exact List.forall_mem_cons.2 ⟨.single starts, fun r hr => (h.leads r hr).tail starts⟩

/-- Gathering the terminals of a label fails where the label names a rule that is worked on, or the
search for that rule fails. -/
theorem visit_error {n : Nat} {state : Table × List (Text × List Text)}
    (h : visit rules n rule state label = .error e) :
    ∃ sub, rules.find? (·.name == label) = some sub ∧
      (state.1.lookup label = some none ∧ e = .leftRecursion rule.name ∨
        state.1.lookup label = none ∧ find rules n sub state.1 = .error e) := by
  unfold visit at h
  split at h
  · cases h
  · next sub named =>
    refine ⟨sub, named, ?_⟩
    split at h
    · cases h
    · next opened =>
      cases h
      exact .inl ⟨opened, rfl⟩
    · next fresh =>
      rcases Except.bind_error.1 h with fails | ⟨_, -, h⟩
      · exact .inr ⟨fresh, fails⟩
      · cases h

/-- A search that fails is right about the rules. -/
theorem find_error {n : Nat} (distinct : (rules.map (·.name)).Nodup)
    (h : find rules n rule table = .error e) (found : Found rules table) (known : rule ∈ rules)
    (fresh : table.lookup rule.name = none) (working : Working rules table path rule)
    (levels : rules.length ≤ path.length + n) : Refutes rules e := by
  induction n generalizing rule table path with
  | zero =>
    have := working.length_lt known fresh
    omega
  | succ n ih =>
    have step {done : List Text} {label : Text} {state state' : Table × List (Text × List Text)}
        (visited : Visited rules ((rule.name, none) :: table) done state)
        (visits : visit rules n rule state label = .ok state') :
        Visited rules ((rule.name, none) :: table) (done ++ [label]) state' :=
      visit_ok (fun h found hrule fresh => find_ok h found hrule fresh) visited visits
    have start : Visited rules ((rule.name, none) :: table) [] ((rule.name, none) :: table, []) :=
      ⟨found.enter fresh, .refl _, by simp, rfl⟩
    rw [find_succ] at h
    rcases Except.bind_error.1 h with fold | ⟨state, fold, h⟩
    · obtain ⟨done, label, state, hl, visited, fails⟩ :=
        Except.foldlM_error (fun _ => step) start fold
      obtain ⟨sub, named, failed⟩ := visit_error fails
      obtain rfl := name_of_find? named
      have starts : Starts rules rule sub := ⟨hl, named⟩
      have next := working.enter known fresh visited.grows starts
      rcases failed with ⟨opened, rfl⟩ | ⟨new, fails⟩
      · -- the rule that is worked on leads to this one, which starts with it
        obtain ⟨r, hr, same⟩ := next.only opened
        have own := find?_name distinct (next.known r hr)
        rw [same, named] at own
        cases own
        refine .leftRecursion known ?_
        rcases List.mem_cons.1 hr with rfl | hr
        · exact .single starts
        · exact (working.leads _ hr).head starts
      · exact ih fails visited.found (List.mem_of_find?_eq_some named) new next
          (by rw [List.length_cons]; omega)
    · have visited := Except.foldlM_ok (fun _ => step) start fold
      rw [List.nil_append] at visited
      rcases Except.bind_error.1 h with check | ⟨_, -, h⟩
      · exact visited.refutes known check
      · cases h

/-- There is no table only if the error that comes instead is right about the rules. -/
theorem table_error (distinct : (rules.map (·.name)).Nodup) (h : First.table rules = .error e) :
    Refutes rules e := by
  obtain ⟨done, rule, t, hr, tabled, fails⟩ := Except.foldlM_error (P := Tabled rules)
    (fun hr inv step => inv.step distinct hr step) tabled_nil h
  split at fails
  · cases fails
  · next new =>
    have nothing : Working rules t [] rule :=
      ⟨by simp, .nil, by simp, fun entry => absurd entry (tabled.closed _), by simp⟩
    exact find_error distinct fails tabled.found hr (Option.not_isSome_iff_eq_none.1 new) nothing
      (by simp)

/-! ## The table -/

/-- No rule of a table can start with itself. -/
theorem not_back (distinct : (rules.map (·.name)).Nodup) (h : First.table rules = .ok table)
    (hr : rule ∈ rules) : ¬ Relation.TransGen (Starts rules) rule rule := by
  obtain ⟨rank, ranked⟩ := table_rank distinct h
  have falls {r s : CompiledRule} (known : r ∈ rules) (starts : Starts rules r s) :
      s ∈ rules ∧ rank s.name < rank r.name :=
    ⟨List.mem_of_find?_eq_some starts.2,
      ranked r known s.name starts.1 (by simp [IsRule, starts.2])⟩
  have chain {sub : CompiledRule} (leads : Relation.TransGen (Starts rules) rule sub) :
      sub ∈ rules ∧ rank sub.name < rank rule.name := by
    induction leads with
    | single starts => exact falls hr starts
    | tail _ starts ih =>
      obtain ⟨known, lower⟩ := falls ih.1 starts
      exact ⟨known, lower.trans ih.2⟩
  exact fun back => absurd (chain back).2 (Nat.lt_irrefl _)

/-- For rules with different names there is a table of first terminals if and only if no chain leads
from a rule back to it and no two arcs out of the first state of a rule lead to one terminal; else
the error is about rules that do so. The table has for each rule the terminals that chains lead to
from it. -/
theorem table_exact (rules : List CompiledRule) (distinct : (rules.map (·.name)).Nodup) :
    ((∃ table, First.table rules = .ok table) ↔
      (∀ rule ∈ rules, ¬ Relation.TransGen (Starts rules) rule rule) ∧
        ∀ rule ∈ rules, rule.initialLabels.Pairwise fun a b =>
          ∀ t, ¬ (Yields rules a t ∧ Yields rules b t)) ∧
    (∀ e, First.table rules = .error e → Refutes rules e) ∧
    ∀ table, First.table rules = .ok table → ∀ rule ∈ rules,
      ∃ set, table.lookup rule.name = some (some set) ∧ ∀ t, t ∈ set ↔ Begins rules rule t := by
  refine ⟨⟨?_, ?_⟩, fun e => table_error distinct, fun table made rule hr => ?_⟩
  · rintro ⟨table, made⟩
    refine ⟨fun rule => not_back distinct made, fun rule hr => ?_⟩
    have tabled := table_ok distinct made
    have named := find?_name distinct hr
    have finished := tabled.finished rule hr
    refine (tabled.found.apart finished named).imp_of_mem fun ha hb disjoint t both => ?_
    exact disjoint
      ((tabled.found.yields (tabled.found.sub finished named _ ha)).2 both.1)
      ((tabled.found.yields (tabled.found.sub finished named _ hb)).2 both.2)
  · rintro ⟨noBack, apart⟩
    cases made : First.table rules with
    | ok table => exact ⟨table, rfl⟩
    | error e =>
      cases table_error distinct made with
      | leftRecursion known back => exact absurd back (noBack _ known)
      | ambiguous known labels first second =>
        have pair := (apart _ known).sublist labels
        exact absurd ⟨first, second⟩ ((List.pairwise_pair.1 pair) _)
  · have tabled := table_ok distinct made
    obtain ⟨set, entry⟩ := tabled.finished rule hr
    refine ⟨set, entry, fun t => ?_⟩
    rw [← tabled.found.begins (tabled.finished rule hr) (find?_name distinct hr), terminals, entry]
    rfl

/-- A rule that starts with another one, which comes behind it. -/
theorem table_exact_two : ∃ rules : List CompiledRule, rules.map (·.name) = [['e'], ['t']] ∧
    (rules.map (·.name)).Nodup ∧ ∃ table, First.table rules = .ok table ∧ ∀ rule ∈ rules,
      ∃ set, table.lookup rule.name = some (some set) ∧ ∀ t, t ∈ set ↔ Begins rules rule t := by
  let rules : List CompiledRule :=
    [⟨['e'], [⟨[("'-'".toList, 0), (['t'], 1)], false⟩, ⟨[("'-'".toList, 0)], true⟩]⟩,
      ⟨['t'], [⟨[("NAME".toList, 1), ("NUMBER".toList, 1)], false⟩, ⟨[], true⟩]⟩]
  have distinct : (rules.map (·.name)).Nodup := by decide
  have found : (First.table rules).isOk = true := by decide +kernel
  obtain ⟨table, made⟩ := Except.exists_ok found
  exact ⟨rules, rfl, distinct, table, made, (table_exact rules distinct).2.2 table made⟩

end Caret.First

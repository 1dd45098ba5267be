import Mathlib.Algebra.Order.BigOperators.Group.List
import Mathlib.Algebra.Order.Group.Nat
import Caret.Grammar.First
/-!
# What a successful search for first terminals has found

`First.find` works on a rule only after all rules that it can start with are finished, so the order
in which rules are finished is a rank: a rule ranks above those it can start with. The terminals of
a finished rule are those of the labels of its first state.

Results:
* `Except.foldlM_ok`, `Except.foldlM_error`: what a fold that can fail keeps, if each step keeps it.
* `checkDisjoint_ok`: labels that pass the check share no terminal.
* `Found`: a table holds the right terminals for its finished rules, and they are ranked.
* `find_ok`: a search that succeeds leaves such a table, its rule finished and no other one open.
* `mem_terminals`: the terminals of a rule, by the labels of its first state.
* `not_isRule_of_mem_terminals`: the terminals of a rule are no rules.
* `table_rank`: no rule can start with itself, not even by way of others.
-/
namespace Caret

namespace Except

variable {ε σ α β : Type}

theorem bind_ok {x : Except ε α} {f : α → Except ε β} {b : β} :
    (x >>= f) = .ok b ↔ ∃ a, x = .ok a ∧ f a = .ok b := by
  cases x with
  | error e =>
    constructor
    · intro h; cases h
    · rintro ⟨_, h, _⟩; cases h
  | ok a =>
    constructor
    · intro h; exact ⟨a, rfl, h⟩
    · rintro ⟨_, h, h'⟩; cases h; exact h'

theorem bind_error {x : Except ε α} {f : α → Except ε β} {e : ε} :
    (x >>= f) = .error e ↔ x = .error e ∨ ∃ a, x = .ok a ∧ f a = .error e := by
  cases x with
  | error e' =>
    constructor
    · intro h; cases h; exact .inl rfl
    · rintro (h | ⟨_, h, _⟩)
      · cases h; rfl
      · cases h
  | ok a =>
    constructor
    · intro h; exact .inr ⟨a, rfl, h⟩
    · rintro (h | ⟨_, h, h'⟩)
      · cases h
      · cases h; exact h'

theorem exists_ok {x : Except ε α} (h : x.isOk = true) : ∃ a, x = .ok a := by
  cases x with
  | error e => cases h
  | ok a => exact ⟨a, rfl⟩

theorem exists_ok_any {x : Except ε α} {p : α → Bool} (h : x.toOption.any p = true) :
    ∃ a, x = .ok a ∧ p a = true := by
  cases x with
  | error => cases h
  | ok a => exact ⟨a, rfl, h⟩

/-- A fold that can fail keeps what each of its steps keeps; `P` also sees the elements passed. -/
theorem foldlM_ok {f : σ → α → Except ε σ} {P : List α → σ → Prop} {xs done : List α} {s s' : σ}
    (step : ∀ {done a s s'}, a ∈ xs → P done s → f s a = .ok s' → P (done ++ [a]) s')
    (start : P done s) (h : xs.foldlM f s = .ok s') : P (done ++ xs) s' := by
  induction xs generalizing done s with
  | nil => cases h; simpa using start
  | cons a xs ih =>
    rw [List.foldlM_cons] at h
    obtain ⟨s₁, hs, h⟩ := bind_ok.1 h
    have := ih (fun hb => step (List.mem_cons_of_mem _ hb)) (step List.mem_cons_self start hs) h
    rwa [List.append_assoc] at this

/-- A fold fails in one of its steps, and up to there keeps what each step keeps. -/
theorem foldlM_error {f : σ → α → Except ε σ} {P : List α → σ → Prop} {xs done : List α} {s : σ}
    {e : ε} (step : ∀ {done a s s'}, a ∈ xs → P done s → f s a = .ok s' → P (done ++ [a]) s')
    (start : P done s) (h : xs.foldlM f s = .error e) :
    ∃ done a s', a ∈ xs ∧ P done s' ∧ f s' a = .error e := by
  induction xs generalizing done s with
  | nil => cases h
  | cons a xs ih =>
    rw [List.foldlM_cons] at h
    cases hs : f s a with
    | error e' =>
      rw [hs] at h
      cases h
      exact ⟨done, a, s, List.mem_cons_self, start, hs⟩
    | ok s' =>
      rw [hs] at h
      obtain ⟨done', b, s'', hb, inv, fails⟩ :=
        ih (fun hb => step (List.mem_cons_of_mem _ hb)) (step List.mem_cons_self start hs) h
      exact ⟨done', b, s'', List.mem_cons_of_mem _ hb, inv, fails⟩

end Except

namespace First

variable {rules : List CompiledRule} {rule : CompiledRule} {table table' : Table}
  {name label : Text}

/-- The label is the name of a rule. -/
def IsRule (rules : List CompiledRule) (label : Text) : Prop :=
  (rules.find? (·.name == label)).isSome = true

instance : Decidable (IsRule rules label) := inferInstanceAs (Decidable (_ = true))

/-- The rule is worked on and has its terminals. -/
def Finished (table : Table) (name : Text) : Prop := ∃ set, table.lookup name = some (some set)

/-- The terminals that a label stands for: a rule for those found for it, another label for
itself. -/
def labelSet (rules : List CompiledRule) (table : Table) (label : Text) : List Text :=
  if IsRule rules label then terminals table label else [label]

/-- The terminals of the finished rules are right and no two labels share one, the rules they can
start with are finished as well, and no chain of such rules comes back. -/
structure Found (rules : List CompiledRule) (table : Table) : Prop where
  sub : ∀ {name rule}, Finished table name → rules.find? (·.name == name) = some rule →
    ∀ label ∈ rule.initialLabels, IsRule rules label → Finished table label
  mem : ∀ {name rule}, Finished table name → rules.find? (·.name == name) = some rule →
    ∀ t, t ∈ terminals table name ↔ ∃ label ∈ rule.initialLabels, t ∈ labelSet rules table label
  apart : ∀ {name rule}, Finished table name → rules.find? (·.name == name) = some rule →
    rule.initialLabels.Pairwise fun a b =>
      (labelSet rules table a).Disjoint (labelSet rules table b)
  rank : ∃ rank : Text → Nat, ∀ {name rule}, Finished table name →
    rules.find? (·.name == name) = some rule →
    ∀ label ∈ rule.initialLabels, IsRule rules label → rank label < rank name

/-- The later table has all entries of the earlier one and no other rule that is worked on. -/
structure Grows (table table' : Table) : Prop where
  keeps : ∀ {name entry}, table.lookup name = some entry → table'.lookup name = some entry
  opens : ∀ {name}, table'.lookup name = some none → table.lookup name = some none

theorem Grows.refl (table : Table) : Grows table table := ⟨id, id⟩

theorem Grows.trans {t₁ t₂ t₃ : Table} (h : Grows t₁ t₂) (h' : Grows t₂ t₃) : Grows t₁ t₃ :=
  ⟨fun e => h'.keeps (h.keeps e), fun e => h.opens (h'.opens e)⟩

theorem Grows.finished (h : Grows table table') (hf : Finished table name) :
    Finished table' name := hf.imp fun _ e => h.keeps e

/-- Terminals once found do not change. -/
theorem Grows.terminals (h : Grows table table') (hf : Finished table name) :
    terminals table' name = terminals table name := by
  obtain ⟨set, e⟩ := hf
  rw [First.terminals, First.terminals, e, h.keeps e]

theorem Grows.labelSet (h : Grows table table')
    (hf : IsRule rules label → Finished table label) :
    labelSet rules table' label = labelSet rules table label := by
  unfold First.labelSet
  split
  · next hr => exact h.terminals (hf hr)
  · rfl

/-! ## One rule -/

theorem shared?_none {owners : List (Text × Text)} {set : List Text} :
    shared? owners set = none ↔ ∀ t ∈ set, owners.lookup t = none := by
  induction set with
  | nil => simp [shared?]
  | cons t set ih =>
    rw [shared?, List.forall_mem_cons]
    cases owners.lookup t with
    | none => simp only [ih, true_and]
    | some owner => simp only [reduceCtorEq, false_and]

/-- Labels that pass the check share no terminal, neither with each other nor with those that have
passed before. -/
theorem checkDisjoint_ok {owners : List (Text × Text)} {sources : List (Text × List Text)}
    (h : checkDisjoint name owners sources = .ok ()) :
    (sources.Pairwise fun a b => a.2.Disjoint b.2) ∧
      ∀ source ∈ sources, ∀ t ∈ source.2, owners.lookup t = none := by
  induction sources generalizing owners with
  | nil => simp
  | cons source rest ih =>
    rw [checkDisjoint] at h
    split at h
    · cases h
    · next free =>
      obtain ⟨disjoint, fresh⟩ := ih h
      -- who owns none of the terminals passed is in none of the sets passed
      have new {s : Text × List Text} (hs : s ∈ rest) {t : Text} (ht : t ∈ s.2) :
          t ∉ source.2 ∧ owners.lookup t = none := by
        have := fresh s hs t ht
        rw [List.lookup_append, Option.or_eq_none_iff, List.lookup_eq_none_iff] at this
        refine ⟨fun own => ?_, this.2⟩
        have := this.1 (t, source.1) (List.mem_map_of_mem own)
        simp at this
      refine ⟨List.pairwise_cons.2 ⟨fun s hs t own other => (new hs other).1 own, disjoint⟩, ?_⟩
      intro s hs t ht
      rcases List.mem_cons.1 hs with rfl | hs
      · exact shared?_none.1 free t ht
      · exact (new hs ht).2

/-- Gather the terminals of one label, searching for those of a rule that has none yet. -/
def visit (rules : List CompiledRule) (n : Nat) (rule : CompiledRule)
    (state : Table × List (Text × List Text)) (label : Text) :
    Except GrammarError (Table × List (Text × List Text)) :=
  match rules.find? (·.name == label) with
  | none => .ok (state.1, state.2 ++ [(label, [label])])
  | some sub =>
    match state.1.lookup label with
    | some (some set) => .ok (state.1, state.2 ++ [(label, set)])
    | some none => .error (.leftRecursion rule.name)
    | none => do
      let table ← find rules n sub state.1
      .ok (table, state.2 ++ [(label, ((table.lookup label).getD none).getD [])])

theorem find_succ (rules : List CompiledRule) (n : Nat) (rule : CompiledRule) (table : Table) :
    find rules (n + 1) rule table = (do
      let state ← rule.initialLabels.foldlM (visit rules n rule) ((rule.name, none) :: table, [])
      checkDisjoint rule.name [] state.2
      return (rule.name, some (Ascending.ofList (state.2.flatMap (·.2)))) :: state.1) := rfl

theorem lookup_cons_ne {entry : Option (List Text)} (h : label ≠ name) :
    List.lookup label ((name, entry) :: table) = table.lookup label := by
  have hb : (label == name) = false := beq_false_of_ne h
  rw [List.lookup_cons, hb]

/-! An entry for a rule changes nothing that is found for others. -/

theorem Finished.ne (h : Finished table label) (opened : table.lookup name = some none) :
    label ≠ name := by
  rintro rfl
  obtain ⟨_, finished⟩ := h
  rw [opened] at finished
  cases finished

theorem finished_cons_ne {entry : Option (List Text)} (h : label ≠ name) :
    Finished ((name, entry) :: table) label ↔ Finished table label := by
  unfold Finished
  rw [lookup_cons_ne h]

theorem terminals_cons_ne {entry : Option (List Text)} (h : label ≠ name) :
    terminals ((name, entry) :: table) label = terminals table label := by
  unfold terminals
  rw [lookup_cons_ne h]

theorem labelSet_cons_ne {entry : Option (List Text)} (h : IsRule rules label → label ≠ name) :
    labelSet rules ((name, entry) :: table) label = labelSet rules table label := by
  unfold labelSet
  split
  · next hi => exact terminals_cons_ne (h hi)
  · rfl

theorem Found.congr (found : Found rules table)
    (finished : ∀ name, Finished table' name ↔ Finished table name)
    (same : ∀ name, terminals table' name = terminals table name) : Found rules table' := by
  obtain ⟨rank, ranked⟩ := found.rank
  have sets (label : Text) : labelSet rules table' label = labelSet rules table label := by
    unfold labelSet; rw [same]
  refine ⟨?_, ?_, ?_, rank, ?_⟩
  · intro name rule hf hr label hl hi
    exact (finished label).2 (found.sub ((finished name).1 hf) hr label hl hi)
  · intro name rule hf hr t
    simp only [same, sets]
    exact found.mem ((finished name).1 hf) hr t
  · intro name rule hf hr
    simp only [sets]
    exact found.apart ((finished name).1 hf) hr
  · intro name rule hf hr label hl hi
    exact ranked ((finished name).1 hf) hr label hl hi

/-- Starting to work on a rule changes nothing that is found. -/
theorem Found.enter (found : Found rules table) (fresh : table.lookup name = none) :
    Found rules ((name, none) :: table) := by
  refine found.congr (fun m => ?_) (fun m => ?_) <;> by_cases h : m = name
  · subst h; simp [Finished, fresh]
  · exact finished_cons_ne h
  · subst h; simp [terminals, fresh]
  · exact terminals_cons_ne h

/-- A rule may be finished when the rules that it can start with are. -/
theorem Found.finish (found : Found rules table) (hopen : table.lookup name = some none)
    (hrule : rules.find? (·.name == name) = some rule) {set : List Text}
    (sub : ∀ label ∈ rule.initialLabels, IsRule rules label → Finished table label)
    (mem : ∀ t, t ∈ set ↔ ∃ label ∈ rule.initialLabels, t ∈ labelSet rules table label)
    (apart : rule.initialLabels.Pairwise fun a b =>
      (labelSet rules table a).Disjoint (labelSet rules table b)) :
    Found rules ((name, some set) :: table) := by
  have cases {m : Text} {r : CompiledRule} (hf : Finished ((name, some set) :: table) m)
      (hr : rules.find? (·.name == m) = some r) :
      m = name ∧ r = rule ∨ m ≠ name ∧ Finished table m := by
    by_cases h : m = name
    · subst h
      exact .inl ⟨rfl, Option.some.inj (hr.symm.trans hrule)⟩
    · exact .inr ⟨h, (finished_cons_ne h).1 hf⟩
  -- what a finished rule can start with was finished before, so the new entry does not touch it
  have before {m : Text} {r : CompiledRule} (hf : Finished ((name, some set) :: table) m)
      (hr : rules.find? (·.name == m) = some r) :
      ∀ label ∈ r.initialLabels, IsRule rules label → Finished table label := by
    rcases cases hf hr with ⟨rfl, rfl⟩ | ⟨-, hm⟩
    · exact sub
    · exact found.sub hm hr
  have sets {m : Text} {r : CompiledRule} (hf : Finished ((name, some set) :: table) m)
      (hr : rules.find? (·.name == m) = some r) {label : Text} (hl : label ∈ r.initialLabels) :
      labelSet rules ((name, some set) :: table) label = labelSet rules table label :=
    labelSet_cons_ne fun hi => (before hf hr label hl hi).ne hopen
  obtain ⟨rank, ranked⟩ := found.rank
  refine ⟨?_, ?_, ?_,
    fun m => if m = name then (rule.initialLabels.map rank).sum + 1 else rank m, ?_⟩
  · intro m r hf hr label hl hi
    have finished := before hf hr label hl hi
    exact (finished_cons_ne (finished.ne hopen)).2 finished
  · intro m r hf hr t
    have same : (∃ label ∈ r.initialLabels, t ∈ labelSet rules ((name, some set) :: table) label) ↔
        ∃ label ∈ r.initialLabels, t ∈ labelSet rules table label :=
      exists_congr fun label => and_congr_right fun hl => by rw [sets hf hr hl]
    rw [same]
    rcases cases hf hr with ⟨rfl, rfl⟩ | ⟨h, hm⟩
    · rw [← mem]
      simp [terminals]
    · rw [terminals_cons_ne h]
      exact found.mem hm hr t
  · intro m r hf hr
    have disjoint : r.initialLabels.Pairwise fun a b =>
        (labelSet rules table a).Disjoint (labelSet rules table b) := by
      rcases cases hf hr with ⟨rfl, rfl⟩ | ⟨-, hm⟩
      · exact apart
      · exact found.apart hm hr
    refine disjoint.imp_of_mem fun ha hb hab => ?_
    rwa [sets hf hr ha, sets hf hr hb]
  · intro m r hf hr label hl hi
    dsimp only
    rw [if_neg ((before hf hr label hl hi).ne hopen)]
    rcases cases hf hr with ⟨rfl, rfl⟩ | ⟨h, hm⟩
    · rw [if_pos rfl]
      have := List.le_sum_of_mem (List.mem_map_of_mem (f := rank) hl)
      omega
    · rw [if_neg h]
      exact ranked hm hr label hl hi

/-- The terminals of the labels passed have been gathered, in their order. -/
structure Visited (rules : List CompiledRule) (before : Table) (done : List Text)
    (state : Table × List (Text × List Text)) : Prop where
  found : Found rules state.1
  grows : Grows before state.1
  finished : ∀ label ∈ done, IsRule rules label → Finished state.1 label
  sources : state.2 = done.map fun label => (label, labelSet rules state.1 label)

/-- What a search that succeeds has done. -/
structure Searched (rules : List CompiledRule) (table : Table) (name : Text) (table' : Table) :
    Prop where
  found : Found rules table'
  grows : Grows table table'
  finished : Finished table' name

theorem Visited.snoc {before : Table} {done : List Text} {state : Table × List (Text × List Text)}
    {set : List Text} (h : Visited rules before done state) (found : Found rules table)
    (grows : Grows state.1 table) (finished : IsRule rules label → Finished table label)
    (hset : set = labelSet rules table label) :
    Visited rules before (done ++ [label]) (table, state.2 ++ [(label, set)]) := by
  refine ⟨found, h.grows.trans grows, ?_, ?_⟩
  · intro l hl hi
    rcases List.mem_append.1 hl with hl | hl
    · exact grows.finished (h.finished l hl hi)
    · rw [List.mem_singleton.1 hl] at hi ⊢; exact finished hi
  · dsimp only
    rw [List.map_append, h.sources, hset, List.map_singleton, List.append_cancel_right_eq]
    refine List.map_congr_left fun l hl => ?_
    rw [grows.labelSet (h.finished l hl)]

/-- Gathering the terminals of one more label, if a search one level down does its work. -/
theorem visit_ok {n : Nat} {before : Table} {done : List Text}
    {state state' : Table × List (Text × List Text)}
    (ih : ∀ {sub table table'}, find rules n sub table = .ok table' → Found rules table →
      rules.find? (·.name == sub.name) = some sub → table.lookup sub.name = none →
      Searched rules table sub.name table')
    (h : Visited rules before done state) (hv : visit rules n rule state label = .ok state') :
    Visited rules before (done ++ [label]) state' := by
  unfold visit at hv
  cases hf : rules.find? (·.name == label) with
  | none =>
    have hi : ¬ IsRule rules label := by simp [IsRule, hf]
    rw [hf] at hv; cases hv
    exact h.snoc h.found (.refl _) (absurd · hi) (by rw [labelSet, if_neg hi])
  | some sub =>
    have hi : IsRule rules label := by simp [IsRule, hf]
    have hname : sub.name = label := by simpa using List.find?_some hf
    rw [hf] at hv
    cases hl : state.1.lookup label with
    | none =>
      simp only [hl] at hv
      obtain ⟨table, search, hv⟩ := Except.bind_ok.1 hv
      cases hv
      have done := ih search h.found (by rw [hname]; exact hf) (by rw [hname]; exact hl)
      rw [hname] at done
      exact h.snoc done.found done.grows (fun _ => done.finished)
        (by rw [labelSet, if_pos hi, terminals])
    | some entry =>
      cases entry with
      | none => simp only [hl] at hv; cases hv
      | some set =>
        simp only [hl] at hv; cases hv
        exact h.snoc h.found (.refl _) (fun _ => ⟨set, hl⟩)
          (by rw [labelSet, if_pos hi, terminals, hl]; rfl)

/-- A search that succeeds finishes its rule, and all rules that this one can start with. -/
theorem find_ok {n : Nat} (h : find rules n rule table = .ok table') (found : Found rules table)
    (hrule : rules.find? (·.name == rule.name) = some rule)
    (fresh : table.lookup rule.name = none) : Searched rules table rule.name table' := by
  induction n generalizing rule table table' with
  | zero => cases h
  | succ n ih =>
    rw [find_succ] at h
    obtain ⟨state, fold, h⟩ := Except.bind_ok.1 h
    obtain ⟨_, check, h⟩ := Except.bind_ok.1 h
    cases h
    have visited : Visited rules ((rule.name, none) :: table) ([] ++ rule.initialLabels) state :=
      Except.foldlM_ok (fun _ => visit_ok ih) ⟨found.enter fresh, .refl _, by simp, rfl⟩ fold
    rw [List.nil_append] at visited
    have hopen : state.1.lookup rule.name = some none :=
      visited.grows.keeps (by rw [List.lookup_cons_self])
    refine ⟨visited.found.finish hopen hrule visited.finished (fun t => ?_) ?_, ?_, ?_⟩
    · rw [Ascending.mem_ofList, visited.sources]
      simp
    · have disjoint := (checkDisjoint_ok check).1
      rwa [visited.sources, List.pairwise_map] at disjoint
    · refine ⟨fun {m _} hm => ?_, fun {m} hm => ?_⟩
      · have hne : m ≠ rule.name := by rintro rfl; rw [fresh] at hm; cases hm
        rw [lookup_cons_ne hne]
        exact visited.grows.keeps (by rw [lookup_cons_ne hne, hm])
      · by_cases hne : m = rule.name
        · subst hne; rw [List.lookup_cons_self] at hm; cases hm
        · rw [lookup_cons_ne hne] at hm
          have := visited.grows.opens hm
          rwa [lookup_cons_ne hne] at this
    · exact ⟨_, List.lookup_cons_self⟩

/-! ## All rules -/

theorem find?_name {rule : CompiledRule} (distinct : (rules.map (·.name)).Nodup)
    (h : rule ∈ rules) : rules.find? (·.name == rule.name) = some rule := by
  induction rules with
  | nil => simp at h
  | cons r rest ih =>
    rw [List.map_cons, List.nodup_cons] at distinct
    rcases List.mem_cons.1 h with rfl | h
    · simp
    · have hne : r.name ≠ rule.name := fun e => distinct.1 (e ▸ List.mem_map_of_mem h)
      rw [List.find?_cons_of_neg (by simpa using hne)]
      exact ih distinct.2 h

/-- The rules passed are finished, and none is worked on. -/
structure Tabled (rules done : List CompiledRule) (table : Table) : Prop where
  found : Found rules table
  closed : ∀ name, table.lookup name ≠ some none
  finished : ∀ rule ∈ done, Finished table rule.name

theorem tabled_nil : Tabled rules [] [] := by
  refine ⟨⟨?_, ?_, ?_, fun _ => 0, ?_⟩, by simp, by simp⟩ <;> rintro _ _ ⟨_, h⟩ <;> cases h

/-- A rule that has its terminals is passed, and another one is searched for. -/
theorem Tabled.step {done : List CompiledRule} (distinct : (rules.map (·.name)).Nodup)
    (hr : rule ∈ rules) (inv : Tabled rules done table)
    (step : (if (table.lookup rule.name).isSome then .ok table
      else find rules rules.length rule table) = .ok table') :
    Tabled rules (done ++ [rule]) table' := by
  split at step
  · next hs =>
    cases step
    refine ⟨inv.found, inv.closed, fun r hr => ?_⟩
    rcases List.mem_append.1 hr with hr | hr
    · exact inv.finished r hr
    · rw [List.mem_singleton.1 hr]
      obtain ⟨entry, he⟩ := Option.isSome_iff_exists.1 hs
      cases entry with
      | none => exact absurd he (inv.closed _)
      | some set => exact ⟨set, he⟩
  · next hs =>
    have fresh : table.lookup rule.name = none := Option.not_isSome_iff_eq_none.1 hs
    have search := find_ok step inv.found (find?_name distinct hr) fresh
    refine ⟨search.found, fun name hn => inv.closed name (search.grows.opens hn), fun r hr => ?_⟩
    rcases List.mem_append.1 hr with hr | hr
    · exact search.grows.finished (inv.finished r hr)
    · rw [List.mem_singleton.1 hr]; exact search.finished

/-- A table that can be made has the terminals of all rules. -/
theorem table_ok (distinct : (rules.map (·.name)).Nodup) (h : First.table rules = .ok table) :
    Tabled rules rules table :=
  Except.foldlM_ok (P := Tabled rules) (fun hr inv step => inv.step distinct hr step) tabled_nil h

/-- The terminals of a rule are those of the labels of its first state. -/
theorem mem_terminals (distinct : (rules.map (·.name)).Nodup) (h : First.table rules = .ok table)
    (hr : rule ∈ rules) (t : Text) :
    t ∈ terminals table rule.name ↔
      ∃ label ∈ rule.initialLabels, t ∈ labelSet rules table label := by
  have tabled := table_ok distinct h
  exact tabled.found.mem (tabled.finished rule hr) (find?_name distinct hr) t

/-- Rules can be ranked so that each ranks above those it can start with. -/
theorem table_rank (distinct : (rules.map (·.name)).Nodup) (h : First.table rules = .ok table) :
    ∃ rank : Text → Nat, ∀ rule ∈ rules, ∀ label ∈ rule.initialLabels,
      IsRule rules label → rank label < rank rule.name := by
  have tabled := table_ok distinct h
  obtain ⟨rank, ranked⟩ := tabled.found.rank
  exact ⟨rank, fun rule hr => ranked (tabled.finished rule hr) (find?_name distinct hr)⟩

/-- The terminals of a rule are no rules. -/
theorem not_isRule_of_mem_terminals (distinct : (rules.map (·.name)).Nodup)
    (h : First.table rules = .ok table) (hr : rule ∈ rules) {t : Text}
    (ht : t ∈ terminals table rule.name) : ¬ IsRule rules t := by
  obtain ⟨rank, ranked⟩ := table_rank distinct h
  induction hn : rank rule.name using Nat.strong_induction_on generalizing rule with
  | _ n ih =>
    obtain ⟨label, hl, hset⟩ := (mem_terminals distinct h hr t).1 ht
    by_cases hi : IsRule rules label
    · obtain ⟨sub, hf⟩ := Option.isSome_iff_exists.1 hi
      have hname : sub.name = label := by simpa using List.find?_some hf
      rw [labelSet, if_pos hi, ← hname] at hset
      exact ih _ (by rw [← hn, hname]; exact ranked rule hr label hl hi)
        (List.mem_of_find?_eq_some hf) hset rfl
    · rw [labelSet, if_neg hi, List.mem_singleton] at hset
      rwa [hset]

end First

end Caret

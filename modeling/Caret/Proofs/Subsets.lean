import Mathlib.Algebra.Group.Nat.Defs
import Mathlib.Data.List.Forall2
import Mathlib.Data.List.Sublists
import Caret.Grammar.Automaton
/-!
# Deterministic states accept the words of their automaton

A deterministic state stands for a set of states of the automaton with silent steps, closed under
such steps. Words are compared one label at a time: a label leads from a closed set to the closed
set of the states that it leads to. Two loops do the work, `Nfa.Reaches` and `Dfa.Explores` without
a limit on their rounds. A state is opened once and an arc followed once, and there are no more
closed sets than subsets of the states, so both come to an end in the rounds that they are given.

Results:
* `Nfa.closes_closure`, `Dfa.explores_ofNfa`: the loops come to an end.
* `Nfa.mem_closure`: a closed set holds what silent steps lead to, and nothing else.
* `Dfa.ofNfa_stands`: each deterministic state has the arcs and the acceptance of its closed set.
* `Dfa.accepts_ofNfa`: the deterministic states accept the words of the automaton.
-/
namespace Caret

namespace Nfa

variable {nfa nfa' : Nfa} {s t u n : Nat} {v w : List Text} {label : Text}
  {states frontier seen : List Nat}

/-! ## Words through an automaton -/

theorem Leads.append (h : Leads nfa s v t) (h' : Leads nfa t w u) : Leads nfa s (v ++ w) u := by
  induction h with
  | refl => exact h'
  | silent arc _ ih => exact .silent arc (ih h')
  | step arc _ ih => exact .step arc (ih h')

/-- More arcs lead at least as far. -/
theorem Leads.mono (sub : nfa.arcs ⊆ nfa'.arcs) (h : Leads nfa s w t) : Leads nfa' s w t := by
  induction h with
  | refl => exact .refl _
  | silent arc _ ih => exact .silent (sub arc) ih
  | step arc _ ih => exact .step (sub arc) ih

/-- The first label of a word is taken by an arc, behind silent steps. -/
theorem leads_cons : Leads nfa s (label :: w) u ↔
    ∃ a b, Leads nfa s [] a ∧ ⟨a, some label, b⟩ ∈ nfa.arcs ∧ Leads nfa b w u := by
  constructor
  · intro h
    generalize hv : label :: w = v at h
    induction h with
    | refl => cases hv
    | silent arc _ ih =>
      obtain ⟨a, b, silent, taken, rest⟩ := ih hv
      exact ⟨a, b, .silent arc silent, taken, rest⟩
    | step arc rest => cases hv; exact ⟨_, _, .refl _, arc, rest⟩
  · rintro ⟨a, b, silent, taken, rest⟩
    exact silent.append (.step taken rest)

theorem Leads.lt_size (wf : nfa.WellFormed) (h : Leads nfa s w t) (hs : s < nfa.size) :
    t < nfa.size := by
  induction h with
  | refl => exact hs
  | silent arc _ ih => exact ih (wf.2.2 _ arc).2
  | step arc _ ih => exact ih (wf.2.2 _ arc).2

/-! ## Closed sets -/

/-- Silent steps out of the states seen lead to states seen or on the frontier. -/
def Bounds (nfa : Nfa) (frontier seen : List Nat) : Prop :=
  ∀ {s t}, ⟨s, none, t⟩ ∈ nfa.arcs → s ∈ seen → t ∈ seen ∨ t ∈ frontier

theorem Bounds.leads (h : nfa.Bounds frontier seen) (hs : s ∈ seen) (silent : Leads nfa s [] u) :
    u ∈ seen ∨ ∃ f ∈ frontier, Leads nfa f [] u := by
  generalize hw : ([] : List Text) = w at silent
  induction silent with
  | refl => exact .inl hs
  | silent arc rest ih =>
    subst hw
    rcases h arc hs with ht | ht
    · exact ih ht rfl
    · exact .inr ⟨_, ht, rest⟩
  | step => cases hw

/-- Opening a state leaves its arcs out of those that are still to be followed. -/
theorem open_length (arcs : List Arc) (hs : s ∉ seen) :
    (arcs.filter fun a => a.source == s && a.label.isNone).length +
        (arcs.filter fun a => !(s :: seen).contains a.source).length ≤
      (arcs.filter fun a => !seen.contains a.source).length := by
  induction arcs with
  | nil => simp
  | cons a arcs ih =>
    simp only [List.filter_cons, List.contains_cons] at ih ⊢
    by_cases hsource : a.source = s
    · cases a.label.isNone <;> simp_all <;> omega
    · cases seen.contains a.source <;> simp_all
      omega

/-- The states that one silent step leads to. -/
def silents (nfa : Nfa) (s : Nat) : List Nat :=
  (nfa.arcs.filter fun a => a.source == s && a.label.isNone).map (·.target)

theorem mem_silents : t ∈ nfa.silents s ↔ ⟨s, none, t⟩ ∈ nfa.arcs := by
  simp only [silents, List.mem_map, List.mem_filter, Bool.and_eq_true, beq_iff_eq,
    Option.isNone_iff_eq_none]
  constructor
  · rintro ⟨⟨source, label, target⟩, ⟨harc, rfl, rfl⟩, rfl⟩
    exact harc
  · exact fun harc => ⟨_, ⟨harc, rfl, rfl⟩, rfl⟩

/-- Following silent steps from the states of the frontier comes to an end; these states have been
reached then. -/
inductive Reaches (nfa : Nfa) : (frontier seen reached : List Nat) → Prop
  | done (seen : List Nat) : Reaches nfa [] seen seen
  | skip {s : Nat} {frontier seen reached : List Nat} (known : s ∈ seen)
      (rest : Reaches nfa frontier seen reached) : Reaches nfa (s :: frontier) seen reached
  | follow {s : Nat} {frontier seen reached : List Nat} (new : s ∉ seen)
      (rest : Reaches nfa (nfa.silents s ++ frontier) (s :: seen) reached) :
      Reaches nfa (s :: frontier) seen reached

/-- A state is opened once and an arc followed once, so there are rounds enough. -/
theorem reaches_reach
    (rounds : frontier.length + (nfa.arcs.filter fun a => !seen.contains a.source).length < n) :
    nfa.Reaches frontier seen (nfa.reach n frontier seen) := by
  induction n generalizing frontier seen with
  | zero => omega
  | succ n ih =>
    cases frontier with
    | nil => exact .done seen
    | cons s frontier =>
      rw [List.length_cons] at rounds
      rw [reach]
      split
      · next known =>
        exact .skip (List.contains_iff_mem.1 known) (ih (by omega))
      · next new =>
        rw [List.contains_iff_mem] at new
        have fewer := open_length nfa.arcs new
        exact .follow new (ih (by rw [List.length_append, silents, List.length_map]; omega))

/-- A state on the frontier that was seen can be left out. -/
theorem Bounds.skip (h : nfa.Bounds (s :: frontier) seen) (known : s ∈ seen) :
    nfa.Bounds frontier seen := by
  intro a b arc ha
  rcases h arc ha with hb | hb
  · exact .inl hb
  · rcases List.mem_cons.1 hb with rfl | hb
    · exact .inl known
    · exact .inr hb

/-- A state on the frontier is seen when what its silent arcs lead to is on the frontier. -/
theorem Bounds.follow (h : nfa.Bounds (s :: frontier) seen) :
    nfa.Bounds (nfa.silents s ++ frontier) (s :: seen) := by
  intro a b arc ha
  rcases List.mem_cons.1 ha with rfl | ha
  · exact .inr (List.mem_append_left _ (mem_silents.2 arc))
  · rcases h arc ha with hb | hb
    · exact .inl (List.mem_cons_of_mem _ hb)
    · rcases List.mem_cons.1 hb with rfl | hb
      · exact .inl List.mem_cons_self
      · exact .inr (List.mem_append_right _ hb)

/-- What is reached is what was seen and what silent steps lead to. -/
theorem Reaches.mem {reached : List Nat} (h : nfa.Reaches frontier seen reached)
    (bounds : nfa.Bounds frontier seen) :
    u ∈ reached ↔ u ∈ seen ∨ ∃ f ∈ frontier, Leads nfa f [] u := by
  induction h with
  | done => simp
  | @skip s frontier seen reached known rest ih =>
    have bounds' : nfa.Bounds frontier seen := bounds.skip known
    rw [ih bounds']
    constructor
    · exact .imp_right fun ⟨f, hf, silent⟩ => ⟨f, List.mem_cons_of_mem _ hf, silent⟩
    · rintro (hu | ⟨f, hf, silent⟩)
      · exact .inl hu
      · rcases List.mem_cons.1 hf with rfl | hf
        · exact bounds'.leads known silent
        · exact .inr ⟨f, hf, silent⟩
  | @follow s frontier seen reached new rest ih =>
    rw [ih bounds.follow]
    constructor
    · rintro (hu | ⟨f, hf, silent⟩)
      · rcases List.mem_cons.1 hu with rfl | hu
        · exact .inr ⟨_, List.mem_cons_self, .refl _⟩
        · exact .inl hu
      · rcases List.mem_append.1 hf with hf | hf
        · exact .inr ⟨s, List.mem_cons_self, .silent (mem_silents.1 hf) silent⟩
        · exact .inr ⟨f, List.mem_cons_of_mem _ hf, silent⟩
    · rintro (hu | ⟨f, hf, silent⟩)
      · exact .inl (List.mem_cons_of_mem _ hu)
      · rcases List.mem_cons.1 hf with rfl | hf
        · cases silent with
          | refl => exact .inl List.mem_cons_self
          | silent arc rest =>
            exact .inr ⟨_, List.mem_append_left _ (mem_silents.2 arc), rest⟩
        · exact .inr ⟨f, List.mem_append_right _ hf, silent⟩

/-- Closing a set of states comes to an end with this set. -/
def Closes (nfa : Nfa) (states set : List Nat) : Prop :=
  ∃ reached, nfa.Reaches states [] reached ∧ set = (List.range nfa.size).filter reached.contains

theorem closes_closure (nfa : Nfa) (states : List Nat) :
    nfa.Closes states (nfa.closure states) := by
  have all := List.length_filter_le (fun a => !([] : List Nat).contains a.source) nfa.arcs
  exact ⟨_, reaches_reach (by omega), rfl⟩

/-- A closed set holds what silent steps lead to. -/
theorem mem_closure (wf : nfa.WellFormed) (known : ∀ s ∈ states, s < nfa.size) :
    u ∈ nfa.closure states ↔ ∃ s ∈ states, Leads nfa s [] u := by
  have bounds : nfa.Bounds states [] := fun _ hs => by simp at hs
  obtain ⟨reached, reaches, closure⟩ := nfa.closes_closure states
  rw [closure, List.mem_filter, List.mem_range, List.contains_iff_mem, reaches.mem bounds]
  simp only [List.not_mem_nil, false_or, and_iff_right_iff_imp]
  rintro ⟨s, hs, silent⟩
  exact silent.lt_size wf (known s hs)

/-- The set is closed: it is the closure of some states. -/
def Closed (nfa : Nfa) (set : List Nat) : Prop :=
  ∃ states, (∀ s ∈ states, s < nfa.size) ∧ set = nfa.closure states

theorem Closed.sublist {set : List Nat} (h : nfa.Closed set) :
    set.Sublist (List.range nfa.size) := by
  obtain ⟨states, -, rfl⟩ := h
  exact List.filter_sublist

theorem Closed.mem_of_leads {set : List Nat} (wf : nfa.WellFormed) (h : nfa.Closed set)
    (hs : s ∈ set) (silent : Leads nfa s [] u) : u ∈ set := by
  obtain ⟨states, known, rfl⟩ := h
  obtain ⟨r, hr, before⟩ := (mem_closure wf known).1 hs
  exact (mem_closure wf known).2 ⟨r, hr, before.append silent⟩

/-! ## Moves of a closed set -/

theorem mem_leaving : (label, t) ∈ nfa.leaving states ↔
    ∃ s ∈ states, ⟨s, some label, t⟩ ∈ nfa.arcs := by
  simp only [leaving, List.mem_filterMap, Option.ite_none_right_eq_some, Option.map_eq_some_iff,
    Prod.mk.injEq, List.contains_iff_mem]
  constructor
  · rintro ⟨⟨source, _, target⟩, harc, hs, l, rfl, rfl, rfl⟩
    exact ⟨source, hs, harc⟩
  · rintro ⟨s, hs, harc⟩
    exact ⟨_, harc, hs, label, rfl, rfl, rfl⟩

/-- The states that a label leads to from a set, silent steps left out. -/
def targets (nfa : Nfa) (states : List Nat) (label : Text) : List Nat :=
  ((nfa.leaving states).filter (·.1 == label)).map (·.2)

theorem mem_targets : t ∈ nfa.targets states label ↔
    ∃ s ∈ states, ⟨s, some label, t⟩ ∈ nfa.arcs := by
  rw [← mem_leaving, targets, List.mem_map]
  constructor
  · rintro ⟨⟨l, t'⟩, h, rfl⟩
    obtain ⟨h, hl⟩ := List.mem_filter.1 h
    rwa [← eq_of_beq hl]
  · intro h
    exact ⟨_, List.mem_filter.2 ⟨h, beq_self_eq_true _⟩, rfl⟩

theorem targets_lt (wf : nfa.WellFormed) : ∀ t ∈ nfa.targets states label, t < nfa.size := by
  intro t ht
  obtain ⟨s, -, arc⟩ := mem_targets.1 ht
  exact (wf.2.2 _ arc).2

/-- A label that leaves the set leads to the closed set of its targets, and only there. -/
theorem mem_moves {set : List Nat} : (label, set) ∈ nfa.moves states ↔
    (∃ t, t ∈ nfa.targets states label) ∧ set = nfa.closure (nfa.targets states label) := by
  simp only [moves, List.mem_map, Ascending.mem_ofList, Prod.mk.injEq]
  constructor
  · rintro ⟨_, ⟨⟨l, t⟩, h, rfl⟩, rfl, rfl⟩
    exact ⟨⟨t, mem_targets.2 (mem_leaving.1 h)⟩, rfl⟩
  · rintro ⟨⟨t, ht⟩, rfl⟩
    exact ⟨label, ⟨(label, t), mem_leaving.2 (mem_targets.1 ht), rfl⟩, rfl, rfl⟩

end Nfa

namespace Dfa

variable {nfa : Nfa} {states : List State} {sets sets' : List (List Nat)} {set : List Nat}
  {i j keep drop : Nat} {w : List Text} {label : Text}

/-! ## Words through deterministic states -/

/-- The word leads from a state to an accepting one. -/
def AcceptsFrom (states : List State) (i : Nat) (w : List Text) : Prop :=
  ∃ s state, Leads states i w s ∧ states[s]? = some state ∧ state.accepting

theorem acceptsFrom_nil : AcceptsFrom states i [] ↔
    ∃ state, states[i]? = some state ∧ state.accepting := by
  constructor
  · rintro ⟨s, state, leads, hs, acc⟩
    cases leads
    exact ⟨state, hs, acc⟩
  · rintro ⟨state, hs, acc⟩
    exact ⟨i, state, .refl i, hs, acc⟩

theorem acceptsFrom_cons : AcceptsFrom states i (label :: w) ↔
    ∃ state t, states[i]? = some state ∧ (label, t) ∈ state.arcs ∧ AcceptsFrom states t w := by
  constructor
  · rintro ⟨s, last, leads, hs, acc⟩
    cases leads with
    | step h h' h'' => exact ⟨_, _, h, h', s, last, h'', hs, acc⟩
  · rintro ⟨state, t, h, h', s, last, h'', hs, acc⟩
    exact ⟨s, last, .step h h' h'', hs, acc⟩

/-! ## Numbering closed sets -/

/-- The arc carries the label of a move and leads to the number of its set. -/
def NumbersMove (sets : List (List Nat)) (move : Text × List Nat) (arc : Text × Nat) : Prop :=
  arc.1 = move.1 ∧ sets[arc.2]? = some move.2

theorem NumbersMove.mono {move : Text × List Nat} {arc : Text × Nat} (h : NumbersMove sets move arc)
    (grows : sets <+: sets') : NumbersMove sets' move arc := by
  obtain ⟨more, rfl⟩ := grows
  refine ⟨h.1, ?_⟩
  have bound := (List.getElem?_eq_some_iff.1 h.2).1
  rw [List.getElem?_append_left bound, h.2]

theorem number_ok (h : number sets set = (i, sets')) :
    sets <+: sets' ∧ sets'[i]? = some set ∧ (sets.Nodup → sets'.Nodup) ∧
      ∀ x ∈ sets', x ∈ sets ∨ x = set := by
  unfold number at h
  split at h
  · next hi =>
    cases h
    obtain ⟨hlt, rfl, -⟩ := List.idxOf?_eq_some_iff.1 hi
    exact ⟨List.prefix_rfl, List.getElem?_eq_getElem hlt, id, fun x hx => .inl hx⟩
  · next hi =>
    cases h
    refine ⟨List.prefix_append _ _, by simp, fun nodup => ?_, fun x hx => by simpa using hx⟩
    rw [List.nodup_append]
    refine ⟨nodup, by simp, fun a ha b hb => ?_⟩
    rw [List.mem_singleton.1 hb]
    rintro rfl
    exact List.idxOf?_eq_none_iff.1 hi ha

theorem numberAll_ok {moves : List (Text × List Nat)} {arcs : List (Text × Nat)}
    (h : numberAll sets moves = (arcs, sets')) :
    sets <+: sets' ∧ List.Forall₂ (NumbersMove sets') moves arcs ∧ (sets.Nodup → sets'.Nodup) ∧
      ∀ x ∈ sets', x ∈ sets ∨ ∃ move ∈ moves, x = move.2 := by
  induction moves generalizing sets arcs with
  | nil =>
    cases h
    exact ⟨List.prefix_rfl, .nil, id, fun x hx => .inl hx⟩
  | cons move moves ih =>
    obtain ⟨label, set⟩ := move
    cases hn : number sets set with
    | mk i sets₁ =>
      cases hr : numberAll sets₁ moves with
      | mk more sets₂ =>
        simp only [numberAll, hn, hr, Prod.mk.injEq] at h
        obtain ⟨rfl, rfl⟩ := h
        obtain ⟨grows, found, nodup, only⟩ := number_ok hn
        obtain ⟨grows', rest, nodup', only'⟩ := ih hr
        have first : NumbersMove sets₁ (label, set) (label, i) := ⟨rfl, found⟩
        refine ⟨grows.trans grows', .cons (first.mono grows') rest, nodup' ∘ nodup,
          fun x hx => ?_⟩
        rcases only' x hx with hx | ⟨move, hm, rfl⟩
        · rcases only x hx with hx | rfl
          · exact .inl hx
          · exact .inr ⟨_, List.mem_cons_self, rfl⟩
        · exact .inr ⟨move, List.mem_cons_of_mem _ hm, rfl⟩

/-! ## The subset construction -/

/-- The state has the arcs and the acceptance of its closed set. -/
def StandsFor (nfa : Nfa) (sets : List (List Nat)) (set : List Nat) (state : State) : Prop :=
  List.Forall₂ (NumbersMove sets) (nfa.moves set) state.arcs ∧
    state.accepting = set.contains nfa.finish

/-- Different closed sets, each of them a set of states of the automaton, are no more than there are
sets of states. -/
theorem length_le_pow (nodup : sets.Nodup) (closed : ∀ x ∈ sets, nfa.Closed x) :
    sets.length ≤ 2 ^ nfa.size := by
  have sub : sets ⊆ (List.range nfa.size).sublists := fun x hx =>
    List.mem_sublists.2 (closed x hx).sublist
  have := (List.subperm_of_subset nodup sub).length_le
  rwa [List.length_sublists, List.length_range] at this

/-- Following the sets from one place on comes to an end, with these states. -/
inductive Explores (nfa : Nfa) : (sets : List (List Nat)) → Nat → List State → Prop
  | done {sets : List (List Nat)} {i : Nat} (h : sets[i]? = none) : Explores nfa sets i []
  | follow {sets sets' : List (List Nat)} {set : List Nat} {i : Nat} {arcs : List (Text × Nat)}
      {states : List State} (h : sets[i]? = some set)
      (numbered : numberAll sets (nfa.moves set) = (arcs, sets'))
      (rest : Explores nfa sets' (i + 1) states) :
      Explores nfa sets i (⟨arcs, set.contains nfa.finish⟩ :: states)

/-- Numbering the moves of a closed set adds closed sets. -/
theorem closed_numberAll {arcs : List (Text × Nat)} (wf : nfa.WellFormed)
    (closed : ∀ x ∈ sets, nfa.Closed x) (h : numberAll sets (nfa.moves set) = (arcs, sets')) :
    ∀ x ∈ sets', nfa.Closed x := by
  intro x hx
  rcases (numberAll_ok h).2.2.2 x hx with hx | ⟨⟨label, next⟩, hm, rfl⟩
  · exact closed x hx
  · exact ⟨_, Nfa.targets_lt wf, (Nfa.mem_moves.1 hm).2⟩

/-- There are rounds enough to follow all sets that are found. -/
theorem explores_explore (wf : nfa.WellFormed) {n : Nat} (nodup : sets.Nodup)
    (closed : ∀ x ∈ sets, nfa.Closed x) (rounds : 2 ^ nfa.size ≤ n + i) :
    Explores nfa sets i (explore nfa n sets i) := by
  induction n generalizing sets i with
  | zero =>
    have := length_le_pow nodup closed
    exact .done (List.getElem?_eq_none (by omega))
  | succ n ih =>
    rw [explore]
    split
    · next hi => exact .done hi
    · next set hi =>
      cases hn : numberAll sets (nfa.moves set) with
      | mk arcs sets' =>
        exact .follow hi hn (ih ((numberAll_ok hn).2.2.1 nodup) (closed_numberAll wf closed hn)
          (by omega))

/-- Every closed set found is followed. -/
theorem Explores.stands (wf : nfa.WellFormed) (h : Explores nfa sets i states)
    (closed : ∀ x ∈ sets, nfa.Closed x) :
    ∃ all, sets <+: all ∧ (∀ x ∈ all, nfa.Closed x) ∧
      List.Forall₂ (StandsFor nfa all) (all.drop i) states := by
  induction h with
  | @done sets i hi =>
    refine ⟨sets, List.prefix_rfl, closed, ?_⟩
    rw [List.drop_eq_nil_of_le (List.getElem?_eq_none_iff.1 hi)]
    exact .nil
  | @follow sets sets' set i arcs states hi hn rest ih =>
    obtain ⟨grows, numbered, -, -⟩ := numberAll_ok hn
    obtain ⟨all, grows', closed', rest⟩ := ih (closed_numberAll wf closed hn)
    refine ⟨all, grows.trans grows', closed', ?_⟩
    obtain ⟨more, hall⟩ := grows.trans grows'
    have found : all[i]? = some set := by
      have bound := (List.getElem?_eq_some_iff.1 hi).1
      rw [← hall, List.getElem?_append_left bound, hi]
    obtain ⟨hlt, hset⟩ := List.getElem?_eq_some_iff.1 found
    rw [List.drop_eq_getElem_cons hlt, hset]
    exact .cons ⟨numbered.imp fun _ _ h => h.mono grows', rfl⟩ rest

/-- Entries of related lists at the same place are related. -/
theorem forall₂_getElem? {α β : Type} {R : α → β → Prop} {xs : List α} {ys : List β} {a : α}
    (h : List.Forall₂ R xs ys) (ha : xs[i]? = some a) : ∃ b, ys[i]? = some b ∧ R a b := by
  induction h generalizing i with
  | nil => simp at ha
  | cons hr _ ih =>
    cases i with
    | zero => cases ha; exact ⟨_, rfl, hr⟩
    | succ i => exact ih ha

/-- An entry of the second list is related to one of the first. -/
theorem forall₂_of_mem {α β : Type} {R : α → β → Prop} {xs : List α} {ys : List β} {b : β}
    (h : List.Forall₂ R xs ys) (hb : b ∈ ys) : ∃ a ∈ xs, R a b := by
  obtain ⟨i, hi⟩ := List.mem_iff_getElem?.1 hb
  obtain ⟨a, ha, hr⟩ := forall₂_getElem? h.flip hi
  exact ⟨a, List.mem_of_getElem? ha, hr⟩

/-- From the state of a closed set on, the words are accepted that lead from the set to the
finish. -/
theorem acceptsFrom_iff (wf : nfa.WellFormed) (closed : ∀ x ∈ sets, nfa.Closed x)
    (stands : List.Forall₂ (StandsFor nfa sets) sets states) (hi : sets[i]? = some set) :
    AcceptsFrom states i w ↔ ∃ s ∈ set, Nfa.Leads nfa s w nfa.finish := by
  have hset : nfa.Closed set := closed set (List.mem_of_getElem? hi)
  obtain ⟨state, hstate, arcs, accepting⟩ := forall₂_getElem? stands hi
  induction w generalizing i set state with
  | nil =>
    rw [acceptsFrom_nil, hstate]
    simp only [Option.some.injEq, exists_eq_left', accepting, List.contains_iff_mem]
    exact ⟨fun h => ⟨_, h, .refl _⟩, fun ⟨s, hs, silent⟩ => hset.mem_of_leads wf hs silent⟩
  | cons label w ih =>
    rw [acceptsFrom_cons, hstate]
    constructor
    · rintro ⟨_, t, hs, hmem, rest⟩
      cases hs
      obtain ⟨⟨_, next⟩, hmove, rfl, hnext⟩ := forall₂_of_mem arcs hmem
      obtain ⟨-, rfl⟩ := Nfa.mem_moves.1 hmove
      have hclosed := closed _ (List.mem_of_getElem? hnext)
      obtain ⟨state', hstate', arcs', accepting'⟩ := forall₂_getElem? stands hnext
      obtain ⟨u, hu, leads⟩ := (ih hnext hclosed state' hstate' arcs' accepting').1 rest
      obtain ⟨t, ht, silent⟩ := (Nfa.mem_closure wf (Nfa.targets_lt wf)).1 hu
      obtain ⟨s, hs, arc⟩ := Nfa.mem_targets.1 ht
      exact ⟨s, hs, .step arc (silent.append leads)⟩
    · rintro ⟨s, hs, leads⟩
      obtain ⟨a, b, silent, arc, rest⟩ := Nfa.leads_cons.1 leads
      have target := Nfa.mem_targets.2 ⟨a, hset.mem_of_leads wf hs silent, arc⟩
      have move := Nfa.mem_moves.2 ⟨⟨b, target⟩, rfl⟩
      obtain ⟨k, hk⟩ := List.mem_iff_getElem?.1 move
      obtain ⟨⟨_, t⟩, harc, rfl, hnext⟩ := forall₂_getElem? arcs hk
      have hclosed := closed _ (List.mem_of_getElem? hnext)
      obtain ⟨state', hstate', arcs', accepting'⟩ := forall₂_getElem? stands hnext
      refine ⟨_, t, rfl, List.mem_of_getElem? harc,
        (ih hnext hclosed state' hstate' arcs' accepting').2 ⟨b, ?_, rest⟩⟩
      exact (Nfa.mem_closure wf (Nfa.targets_lt wf)).2 ⟨b, target, .refl _⟩

/-- The set that the subset construction starts from. -/
theorem closed_start (wf : nfa.WellFormed) : ∀ x ∈ [nfa.closure [nfa.start]], nfa.Closed x := by
  have known : ∀ s ∈ [nfa.start], s < nfa.size := by simpa using wf.1
  simpa using ⟨_, known, rfl⟩

theorem explores_ofNfa (wf : nfa.WellFormed) :
    Explores nfa [nfa.closure [nfa.start]] 0 (ofNfa nfa) :=
  explores_explore wf (List.nodup_singleton _) (closed_start wf) (Nat.le_refl _)

/-- Each deterministic state stands for a closed set, the first one for that of the start. -/
theorem ofNfa_stands (wf : nfa.WellFormed) : ∃ all, all[0]? = some (nfa.closure [nfa.start]) ∧
    (∀ x ∈ all, nfa.Closed x) ∧ List.Forall₂ (StandsFor nfa all) all (ofNfa nfa) := by
  obtain ⟨all, ⟨more, rfl⟩, closed, stands⟩ := (explores_ofNfa wf).stands wf (closed_start wf)
  exact ⟨_, rfl, closed, stands⟩

/-- The deterministic states of an automaton accept its words. -/
theorem accepts_ofNfa (wf : nfa.WellFormed) : Accepts (ofNfa nfa) w ↔ nfa.Accepts w := by
  have known : ∀ s ∈ [nfa.start], s < nfa.size := by simpa using wf.1
  obtain ⟨all, first, closed, stands⟩ := ofNfa_stands wf
  refine (acceptsFrom_iff wf closed stands first).trans ?_
  constructor
  · rintro ⟨s, hs, leads⟩
    obtain ⟨r, hr, silent⟩ := (Nfa.mem_closure wf known).1 hs
    rw [List.mem_singleton] at hr
    subst hr
    exact silent.append leads
  · intro leads
    exact ⟨_, (Nfa.mem_closure wf known).2 ⟨_, List.mem_singleton_self _, .refl _⟩, leads⟩

end Dfa

end Caret

import Mathlib.Data.List.TakeWhile
import Caret.Proofs.Gluing
import Caret.Proofs.Merging
import Caret.Proofs.Shapes
/-!
# The stack hangs together

Every arc of a description's tables leads to a state of its own rule, so a frame that moves along
arcs stays in the states of its rule. A frame that was entered has been entered by an arc that leads
to the present state of the frame below it. A frame on top of others has children: the token that it
was entered for, or what was closed or set aside above it. All of this holds with the tables of any
description, whatever is fed and whatever recovery does with it.

Results:
* `Grammar.inRange_of_ofLines`: rules have a state, and arcs lead to states of their rule.
* `Runs.busy`, `busy_recover`: frames on top of others have children after a token and after
  recovery.
* `Runs.ranged`: frames stay in the states of their rules.
* `lasting_hanging`: all of this lasts, whatever is fed.
* `fed_hangs`: how the open frames hang together, whatever was fed.
-/
namespace Caret

/-! ## States of rules -/

namespace Dfa

variable {states merged : List State}

/-- Merging twins leaves a state. -/
theorem Merges.ne_nil (h : Merges states merged) (some : states ≠ []) : merged ≠ [] := by
  induction h with
  | done => exact some
  | @round states merged keep drop h _ ih =>
    obtain ⟨hlt, hd, -⟩ := firstTwins?_ok h
    apply ih
    intro none
    have length := congrArg List.length none
    rw [merge, List.length_map, List.length_eraseIdx_of_lt hd, List.length_nil] at length
    omega

end Dfa

namespace Grammar

variable {g : Grammar} {r : RuleTable} {a : Arc} {s : Nat}

/-- Every rule has a state, and its arcs lead to its states. -/
structure InRange (g : Grammar) : Prop where
  start : ∀ {r : RuleTable}, r ∈ g.rules → 0 < r.states.size
  target : ∀ {r : RuleTable} {s : Nat} {a : Arc}, r ∈ g.rules → a ∈ r.arcs s →
    a.target < r.states.size

/-- The states of a compiled rule: there is one, and arcs lead to one. -/
theorem compiled_inRange (rule : Rule) :
    (CompiledRule.ofRule rule).states ≠ [] ∧ Dfa.InRange (CompiledRule.ofRule rule).states := by
  have wf := Nfa.ofRhs_wellFormed rule.rhs
  have merges := Dfa.merges_simplify (Dfa.ofNfa (Nfa.ofRhs rule.rhs))
  refine ⟨merges.ne_nil ?_, merges.inRange (Dfa.inRange_ofNfa wf)⟩
  obtain ⟨all, first, -, stands⟩ := Dfa.ofNfa_stands wf
  intro none
  rw [none, List.forall₂_nil_right_iff] at stands
  rw [stands] at first
  cases first

/-- In the tables of a description every arc leads to a state of its rule. -/
theorem inRange_of_ofLines {lines : List Text} (h : ofLines lines = .ok g) : g.InRange := by
  obtain ⟨rs, found, -, made⟩ := made_of_ofLines h
  -- what a table has of its compiled rule
  have compiled {r : RuleTable} (hr : r ∈ g.rules) : ∃ rule index,
      NumbersRule (rs.map .ofRule) found g.labels.toList index (.ofRule rule) r := by
    obtain ⟨index, _, hrule, numbers⟩ := made.mem hr
    rw [List.getElem?_map, Option.map_eq_some_iff] at hrule
    obtain ⟨rule, -, rfl⟩ := hrule
    exact ⟨rule, index, numbers⟩
  constructor
  · intro r hr
    obtain ⟨rule, index, numbers⟩ := compiled hr
    rw [numbers.size_eq]
    exact List.length_pos_iff.2 (compiled_inRange rule).1
  · intro r s a hr ha
    obtain ⟨rule, index, numbers⟩ := compiled hr
    rw [numbers.size_eq]
    obtain ⟨state, hs, ⟨p, hp, target, -⟩ | ⟨-, rfl⟩⟩ := numbers.of_mem_arcs ha
    · rw [target]
      exact (compiled_inRange rule).2 state (List.mem_of_getElem? hs) p hp
    · exact (List.getElem?_eq_some_iff.1 hs).1

end Grammar

namespace Parser

variable {g : Grammar} {label target : Nat} {t : Token} {p q : Parser} {top : Frame}
  {rest : List Frame} {sub : RuleTable}

/-! ## Frames on top have children -/

theorem laden_pop (below : rest ≠ []) (hs : p.stack = top :: rest) : Laden p.pop.stack := by
  obtain ⟨next, rest, rfl⟩ := List.exists_cons_of_ne_nil below
  unfold pop
  rw [hs]
  exact laden_add

theorem busy_pop (h : p.stack = top :: rest) : Busy p.pop.stack := by
  cases rest with
  | nil =>
    have none : p.pop.stack = [] := List.length_eq_zero_iff.1 (pop_stack_length h)
    intro f hf
    rw [none] at hf
    cases hf
  | cons next rest => exact (laden_pop (List.cons_ne_nil _ _) h).busy

theorem busy_take (hs : p.stack = top :: rest) : Busy (take g label target t p).stack := by
  have moved : (p.moveTo target).stack = { top with state := target } :: rest := moveTo_stack hs
  obtain ⟨-, stack⟩ := addLeaf_open (l := leafOf g label t) moved
  refine popCompleted_keeps (P := fun q => Busy q.stack) (fun hs _ _ => busy_pop hs) ?_
  rw [stack]
  exact laden_add.busy

/-- A token leaves a frame with children on top, or the outermost one, if what it finds on top has
children or was entered for it. -/
theorem Runs.busy {r : Outcome × Parser} (ok : g.Consistent) (h : Runs g label t p r)
    (known : Known g p) (fresh : Fresh label p.stack) : Busy r.2.stack := by
  induction h with
  | complete h =>
    intro f hf
    rw [h] at hf
    cases hf
  | shift hs => exact busy_take hs
  | enter hs hm _ ih =>
    obtain ⟨a, -, enters, first, rfl⟩ := move?_enter hm
    exact ih (known.push hs enters.mem) (fresh_push hs first)
  | last hs => exact busy_pop hs
  | close hs _ _ _ _ ih => exact ih known.pop (.inl (busy_pop hs))
  | stuck hs hm => exact fresh.busy ok known hs hm

/-- Where recovery finds nothing to take off, the frame that it stops at has children or is the
outermost one. -/
theorem Cut.stops {c : Cut} (busy : Busy p.stack) (hc : cut? [] p.stack = some c)
    (none : c.fold.removed = []) :
    c.fold.container.children ≠ [] ∨ c.fold.below = [] := by
  apply Cut.fold_stops
  have whole : p.stack = c.above ++ c.container :: c.below := (cut?_stack hc).symm
  rcases cut?_container hc with (source | ⟨-, two⟩) | bottom
  · -- a source is not folded, so nothing above it has children, and then it is on top
    rw [c.foldsTo_fold.eq_self (by rw [source]; decide)] at none
    by_cases outermost : c.below = []
    · exact .inr outermost
    left
    cases above : c.above with
    | nil =>
      rw [above] at whole
      exact busy c.container (by rw [whole]; rfl) (by rw [whole]; exact outermost)
    | cons top above' =>
      have empty : top.children = [] := by
        have all := List.dropWhile_eq_nil_iff.1 none top (by simp [above])
        simpa using all
      rw [above] at whole
      exact absurd empty (busy top (by rw [whole]; rfl) (by rw [whole]; simp))
  · left
    intro empty
    rw [empty] at two
    cases two
  · exact .inr bottom

/-- Recovery leaves a frame with children on top, or the outermost one. -/
theorem busy_recover {again : Bool} (open_ : p.stack ≠ []) (busy : Busy p.stack)
    (hr : recover t p = (again, q)) : Busy q.stack := by
  obtain ⟨c, hc, recovers⟩ := recover_cases open_ hr
  cases recovers with
  | dropped none =>
    intro f hf below
    cases hf
    exact (Cut.stops busy hc none).resolve_right below
  | misplaced => exact laden_add.busy
  | removed => exact laden_add.busy

/-! ## Frames stay in the states of their rules -/

/-- The frames are in states of their rules. -/
def Ranged (p : Parser) : Prop := ∀ f ∈ p.spine, f.2 < f.1.states.size

theorem Ranged.drop {k : Nat} (h : Ranged p) (hk : q.spine = p.spine.drop k) : Ranged q := by
  intro f hf
  rw [hk] at hf
  exact h f (List.mem_of_mem_drop hf)

theorem Ranged.pop (h : Ranged p) : Ranged p.pop :=
  h.drop (k := 1) (by rw [spine_pop, List.drop_one])

theorem Ranged.moveTo {a : Arc} (inside : g.InRange) (known : Known g p) (h : Ranged p)
    (hs : p.stack = top :: rest) (ha : a ∈ top.arcs) : Ranged (p.moveTo a.target) := by
  intro f hf
  rw [spine_moveTo hs] at hf
  rcases List.mem_cons.1 hf with rfl | hf
  · exact inside.target (known.innermost hs) ha
  · exact h f (by rw [spine_eq hs]; exact List.mem_cons_of_mem _ hf)

theorem Ranged.push {a : Arc} (inside : g.InRange) (known : Known g p) (h : Ranged p)
    (hs : p.stack = top :: rest) (ha : a ∈ top.arcs) (hsub : sub ∈ g.rules) :
    Ranged (p.push sub a.target) := by
  intro f hf
  rw [spine_push hs] at hf
  rcases List.mem_cons.1 hf with rfl | hf
  · exact inside.start hsub
  · exact h.moveTo inside known hs ha f (by rwa [spine_moveTo hs])

/-- A token moves frames along arcs and enters rules at their start. -/
theorem Runs.ranged {r : Outcome × Parser} (inside : g.InRange) (h : Runs g label t p r)
    (known : Known g p) (ranged : Ranged p) : Ranged r.2 := by
  induction h with
  | complete => exact ranged
  | shift hs hm =>
    obtain ⟨a, ha, -, rfl⟩ := move?_shift hm
    refine popCompleted_keeps (fun _ _ h => h.pop) ?_
    unfold Ranged
    rw [spine_addLeaf]
    exact ranged.moveTo inside known hs ha
  | enter hs hm _ ih =>
    obtain ⟨a, ha, enters, -, rfl⟩ := move?_enter hm
    exact ih (known.push hs enters.mem) (ranged.push inside known hs ha enters.mem)
  | last => exact ranged.pop
  | close _ _ _ _ _ ih => exact ih known.pop ranged.pop
  | stuck => exact ranged

/-! ## Whatever is fed -/

/-- The open frames are of rules of the grammar and in states of theirs, each entered from the one
below it, and a frame on top of others has children. -/
structure Hanging (g : Grammar) (p : Parser) : Prop where
  known : Known g p
  linked : Linked g p.spine
  ranged : Ranged p
  busy : Busy p.stack

theorem hanging_new (ok : g.Consistent) (inside : g.InRange) : Hanging g (new g) := by
  obtain ⟨start, hs⟩ := ok.start
  refine ⟨known_new g, linked_new ok, ?_, ?_⟩
  · intro f hf
    rw [spine_eq (new_stack hs)] at hf
    rw [List.mem_singleton.1 hf]
    exact inside.start (Array.mem_of_getElem? hs)
  · intro f _ below
    rw [new_stack hs] at below
    exact absurd rfl below

theorem Hanging.shift {o : Outcome} (ok : g.Consistent) (inside : g.InRange) (h : Hanging g p)
    (hs : shift g t p = (o, q)) : Hanging g q := by
  rcases shift_cases ok h.known hs with ⟨-, -, rfl⟩ | ⟨label, -, runs⟩
  · exact h
  · exact ⟨h.known.shift ok hs, runs.linked h.linked, runs.ranged inside h.known h.ranged,
      runs.busy ok h.known (.inl h.busy)⟩

theorem Hanging.recover {again : Bool} (h : Hanging g p) (open_ : p.stack ≠ [])
    (hr : recover t p = (again, q)) : Hanging g q := by
  obtain ⟨k, spine⟩ := recover_spine hr
  exact ⟨h.known.recover hr, h.linked.recover hr, h.ranged.drop spine,
    busy_recover open_ h.busy hr⟩

theorem lasting_hanging (ok : g.Consistent) (inside : g.InRange) : Lasting g (Hanging g) := by
  refine ⟨fun _ h hs => h.shift ok inside hs, fun _ open_ h hr => h.recover open_ hr, ?_⟩
  intro p omitted depth h
  exact ⟨h.known, h.linked, h.ranged, h.busy⟩

/-- The outermost of linked frames is that of the start rule. -/
theorem Linked.outermost {stack : List Frame} (h : Linked g (spineOf stack)) (open_ : stack ≠ []) :
    ∃ f, stack.getLast? = some f ∧ g.start? = some f.rule := by
  induction stack with
  | nil => exact absurd rfl open_
  | cons f below ih =>
    cases below with
    | nil =>
      cases h with
      | start hs => exact ⟨f, rfl, hs⟩
    | cons next below =>
      obtain ⟨last, found, start⟩ := ih h.tail (List.cons_ne_nil _ _)
      exact ⟨last, by rw [List.getLast?_cons_cons]; exact found, start⟩

/-- The upper frame was entered by an arc that leads to the present state of the lower one. -/
def EnteredFrom (g : Grammar) (upper lower : Frame) : Prop :=
  ∃ s, ∃ a ∈ lower.rule.arcs s, g.Enters a upper.rule ∧ a.target = lower.state

theorem Linked.chain {stack : List Frame} (h : Linked g (spineOf stack)) :
    stack.IsChain (EnteredFrom g) := by
  induction stack with
  | nil => exact .nil
  | cons f below ih =>
    cases below with
    | nil => exact .singleton f
    | cons next below =>
      have linked := ih h.tail
      cases h with
      | cons ha enters target _ => exact .cons_cons ⟨_, _, ha, enters, target⟩ linked

/-- With the tables of any description, whatever was fed: where frames are open, the outermost is
that of the start rule, each is in a state of its rule, each but the outermost was entered by an arc
that leads to the state of the next one below, and a frame on top of others has children. -/
theorem fed_hangs {lines : List Text} (compiled : Grammar.ofLines lines = .ok g)
    (tokens : List Token) :
    ((fed g tokens).stack ≠ [] →
      ∃ f, (fed g tokens).stack.getLast? = some f ∧ g.start? = some f.rule) ∧
    (∀ f ∈ (fed g tokens).stack, f.rule ∈ g.rules ∧ f.state < f.rule.states.size) ∧
    (fed g tokens).stack.IsChain (EnteredFrom g) ∧
    ∀ top below, (fed g tokens).stack = top :: below → below ≠ [] → top.children ≠ [] := by
  have ok := Grammar.consistent_of_ofLines compiled
  have inside := Grammar.inRange_of_ofLines compiled
  have hanging : Hanging g (fed g tokens) :=
    (lasting_hanging ok inside).feedFrom ok (known_new g) (hanging_new ok inside) tokens
  refine ⟨hanging.linked.outermost, fun f hf => ?_, hanging.linked.chain, ?_⟩
  · have member : (f.rule, f.state) ∈ (fed g tokens).spine := List.mem_map_of_mem hf
    exact ⟨hanging.known _ member, hanging.ranged _ member⟩
  · intro top below hs others
    apply hanging.busy top
    · rw [hs]
      rfl
    · rw [hs]
      exact others

/-- Behind a name that may be followed by another the frame of `e` is open, with a child, on that of
`s`, which has entered it. -/
theorem fed_hangs_after_name : ∃ g top bottom, Grammar.ofLines
      ["s: e ENDMARKER".toList, "e: NAME ['if' NAME]".toList] = .ok g ∧
    (fed g [⟨.name, ['x'], [], .start⟩]).stack = [top, bottom] ∧
    top.rule.name = "e" ∧ top.state < top.rule.states.size ∧ top.children ≠ [] ∧
    EnteredFrom g top bottom ∧
    bottom.rule.name = "s" ∧ bottom.state < bottom.rule.states.size ∧
    g.start? = some bottom.rule := by
  have computed : (Grammar.ofLines
      ["s: e ENDMARKER".toList, "e: NAME ['if' NAME]".toList]).toOption.any (fun g =>
        (fed g [⟨.name, ['x'], [], .start⟩]).stack.map (·.rule.name) == ["e", "s"]) = true := by
    decide +kernel
  obtain ⟨g, compiled, names⟩ := Except.exists_ok_any computed
  obtain ⟨outermost, frames, chain, busy⟩ := fed_hangs compiled [⟨.name, ['x'], [], .start⟩]
  obtain ⟨top, rest, stack, upper, names⟩ := List.map_eq_cons_iff.1 (eq_of_beq names)
  obtain ⟨bottom, rest, rfl, lower, names⟩ := List.map_eq_cons_iff.1 names
  obtain rfl := List.map_eq_nil_iff.1 names
  rw [stack] at outermost frames chain
  obtain ⟨last, found, start⟩ := outermost (List.cons_ne_nil _ _)
  cases found
  exact ⟨g, top, bottom, compiled, stack, upper, (frames top (by simp)).2,
    busy top [bottom] stack (List.cons_ne_nil _ _), (List.isChain_cons_cons.1 chain).1, lower,
    (frames bottom (by simp)).2, start⟩

end Parser

end Caret

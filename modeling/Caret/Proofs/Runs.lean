import Mathlib.Logic.Relation
import Caret.Parser
import Caret.Proofs.Tables
/-!
# What the parser does with one token

`advance` enters and closes rules until the innermost frame takes the token or no frame does. `Runs`
says so without counting rounds. The rounds that `shift` allows are enough: a frame is closed only
before the first rule is entered, and a rule that was entered can only enter rules of lower rank.

What a token can do depends on the rules and states of the open frames alone, not on the trees in
them; these are the stack's spine.

Results:
* `move?_none`, `move?_shift`, `move?_enter`: what the innermost frame can do with a label.
* `Runs`: what becomes of a token.
* `runs_shift`: with tables of a description, `shift` gives what `Runs` says.
* `shift_stuck`: a stuck token has closed rules and done nothing else.
* `Runs.shifted_iff`: a token is shifted if and only if its label fits (`Fits`).
-/
namespace Caret.Parser

variable {g : Grammar} {label target : Nat} {t : Token} {p q : Parser} {top : Frame}
  {rest : List Frame} {sub : RuleTable} {arcs : List Arc} {r : Outcome × Parser}

/-! ## One frame -/

theorem move?_none : move? g label arcs = none ↔ ∀ a ∈ arcs, ¬ g.Takes a label := by
  unfold move?
  rw [List.findSome?_eq_none_iff]
  refine forall₂_congr fun a _ => ?_
  unfold Grammar.Takes Grammar.Enters
  split
  · next h => simp [h]
  · next h =>
    split
    · next index hl =>
      split
      · next rule hr => simp [h, hl, hr]
      · next hr => simp [h, hl, hr]
    · next hl => simpa [h] using fun sub j hj => absurd hj (hl j)

theorem move?_some {m : Move} (h : move? g label arcs = some m) :
    ∃ a ∈ arcs, (a.label = label ∧ m = .shift a.target) ∨
      ∃ sub, g.Enters a sub ∧ label ∈ sub.first ∧ m = .enter sub a.target := by
  obtain ⟨a, ha, h⟩ := List.exists_of_findSome?_eq_some h
  refine ⟨a, ha, ?_⟩
  split at h
  · next hl => cases h; exact .inl ⟨hl, rfl⟩
  · split at h
    · next index hl =>
      split at h
      · next rule hr =>
        split at h
        · next hf => cases h; exact .inr ⟨rule, ⟨index, hl, hr⟩, by simpa using hf, rfl⟩
        · cases h
      · cases h
    · cases h

theorem move?_shift (h : move? g label arcs = some (.shift target)) :
    ∃ a ∈ arcs, a.label = label ∧ a.target = target := by
  obtain ⟨a, ha, ⟨hl, hm⟩ | ⟨_, _, _, hm⟩⟩ := move?_some h <;> cases hm
  exact ⟨a, ha, hl, rfl⟩

theorem move?_enter (h : move? g label arcs = some (.enter sub target)) :
    ∃ a ∈ arcs, g.Enters a sub ∧ label ∈ sub.first ∧ a.target = target := by
  obtain ⟨a, ha, ⟨_, hm⟩ | ⟨_, he, hf, hm⟩⟩ := move?_some h <;> cases hm
  exact ⟨a, ha, he, hf, rfl⟩

/-- At its start a rule can do something with the labels that it can start with. -/
theorem move?_first (ok : g.Consistent) (known : sub ∈ g.rules) (first : label ∈ sub.first) :
    move? g label (sub.arcs 0) ≠ none := by
  obtain ⟨-, a, ha, takes⟩ := (ok.mem_first known).1 first
  exact fun hm => move?_none.1 hm a ha takes

/-! ## The spine of a stack -/

/-- The rules and states of frames. -/
def spineOf (stack : List Frame) : List (RuleTable × Nat) := stack.map fun f => (f.rule, f.state)

/-- The rules and states of the open frames, innermost first. -/
def spine (p : Parser) : List (RuleTable × Nat) := spineOf p.stack

@[simp] theorem spine_attach (tree : Tree) : (p.attach tree).spine = p.spine := by
  unfold attach spine
  split <;> next h => simp [h, spineOf, Frame.add]

@[simp] theorem spine_addLeaf (l : Leaf) : (p.addLeaf l).spine = p.spine := spine_attach _

@[simp] theorem spine_pop : p.pop.spine = p.spine.tail := by
  unfold pop
  split
  · next h => simp [spine, spineOf, h]
  · next h => rw [spine_attach]; simp [spine, spineOf, h]

theorem moveTo_stack (h : p.stack = top :: rest) :
    (p.moveTo target).stack = { top with state := target } :: rest := by
  rw [moveTo, h]

theorem spine_moveTo (h : p.stack = top :: rest) :
    (p.moveTo target).spine = (top.rule, target) :: spineOf rest := by
  simp [moveTo, spine, spineOf, h]

theorem push_stack (h : p.stack = top :: rest) :
    (p.push sub target).stack = ⟨sub, 0, []⟩ :: { top with state := target } :: rest := by
  rw [push, moveTo, h]

theorem spine_push (h : p.stack = top :: rest) :
    (p.push sub target).spine = (sub, 0) :: (top.rule, target) :: spineOf rest := by
  simp [spine, spineOf, push_stack h]

theorem spine_eq (h : p.stack = top :: rest) : p.spine = (top.rule, top.state) :: spineOf rest := by
  simp [spine, spineOf, h]

theorem stack_length : p.stack.length = p.spine.length := by simp [spine, spineOf]

theorem pop_empty (h : p.stack = []) : p.pop = p := by rw [pop, h]

/-- The outermost frame is closed to the whole tree. -/
theorem pop_outermost (h : p.stack = [top]) :
    p.pop.stack = [] ∧ p.pop.root = some top.close := by
  rw [pop, h]
  exact ⟨rfl, rfl⟩

/-- Any other frame is closed to a child of the next one below. -/
theorem pop_inner {lower : Frame} {below : List Frame} (h : p.stack = top :: lower :: below) :
    p.pop.stack = lower.add top.close :: below ∧ p.pop.root = p.root := by
  rw [pop, h]
  exact ⟨rfl, rfl⟩

theorem pop_stack_length (h : p.stack = top :: rest) : p.pop.stack.length = rest.length := by
  rw [stack_length, spine_pop, spine_eq h]
  simp [spineOf]

/-- What closing one frame that can do nothing but end keeps, closing all of them keeps. -/
theorem popCompleted_keeps {P : Parser → Prop} {n : Nat}
    (keeps : ∀ {p : Parser} {top : Frame} {rest : List Frame}, p.stack = top :: rest →
      top.rule.acceptsOnly top.state = true → P p → P p.pop) (h : P p) : P (popCompleted n p) := by
  induction n generalizing p with
  | zero => exact h
  | succ n ih =>
    unfold popCompleted
    split
    · exact h
    · next hs =>
      split
      · next only => exact ih (keeps hs only h)
      · exact h

/-- Closing goes on until the innermost frame can do more than end. -/
theorem popCompleted_settled {n : Nat} (h : p.stack.length ≤ n)
    (hs : (popCompleted n p).stack = top :: rest) : top.rule.acceptsOnly top.state = false := by
  induction n generalizing p with
  | zero =>
    rw [Nat.le_zero, List.length_eq_zero_iff] at h
    rw [popCompleted, h] at hs
    cases hs
  | succ n ih =>
    unfold popCompleted at hs
    split at hs
    · next empty => rw [empty] at hs; cases hs
    · next top' rest' hs' =>
      split at hs
      · have := pop_stack_length hs'
        rw [hs', List.length_cons] at h
        exact ih (by omega) hs
      · next only =>
        rw [hs'] at hs
        cases hs
        simpa using only

/-- All open frames are of rules of the grammar. -/
def Known (g : Grammar) (p : Parser) : Prop := ∀ f ∈ p.spine, f.1 ∈ g.rules

theorem Known.pop (h : Known g p) : Known g p.pop := by
  intro f hf
  rw [spine_pop] at hf
  exact h f (List.mem_of_mem_tail hf)

theorem Known.innermost (h : Known g p) (hs : p.stack = top :: rest) : top.rule ∈ g.rules :=
  h (top.rule, top.state) (by rw [spine_eq hs]; exact List.mem_cons_self)

theorem Known.moveTo (h : Known g p) (hs : p.stack = top :: rest) : Known g (p.moveTo target) := by
  intro f hf
  rw [spine_moveTo hs] at hf
  rcases List.mem_cons.1 hf with rfl | hf
  · exact h.innermost hs
  · exact h f (by rw [spine_eq hs]; exact List.mem_cons_of_mem _ hf)

theorem Known.push (h : Known g p) (hs : p.stack = top :: rest) (hsub : sub ∈ g.rules) :
    Known g (p.push sub target) := by
  intro f hf
  rw [spine_push hs] at hf
  rcases List.mem_cons.1 hf with rfl | hf
  · exact hsub
  · exact h.moveTo hs f (by rwa [spine_moveTo hs])

theorem Known.popCompleted {n : Nat} (h : Known g p) : Known g (popCompleted n p) :=
  popCompleted_keeps (fun _ _ h => h.pop) h

/-! ## What shifting does not touch -/

/-- What is remembered of blocks: those whose opening token was dropped, and how many are open. -/
def blocks (p : Parser) : List Nat × Nat := (p.omitted, p.depth)

/-- What only recovery and block tokens touch: the statements set aside and what is remembered of
blocks. -/
def aside (p : Parser) : List BrokenStatement × List Nat × Nat := (p.broken, p.blocks)

@[simp] theorem aside_attach (tree : Tree) : (p.attach tree).aside = p.aside := by
  unfold attach
  split <;> rfl

@[simp] theorem aside_pop : p.pop.aside = p.aside := by
  unfold pop
  split
  · rfl
  · rw [aside_attach]
    rfl

@[simp] theorem aside_moveTo : (p.moveTo target).aside = p.aside := by
  unfold moveTo
  split <;> rfl

@[simp] theorem aside_addLeaf (l : Leaf) : (p.addLeaf l).aside = p.aside := aside_attach _

@[simp] theorem aside_push : (p.push sub target).aside = p.aside := aside_moveTo

@[simp] theorem aside_popCompleted {n : Nat} : (popCompleted n p).aside = p.aside :=
  popCompleted_keeps (P := fun q => q.aside = p.aside) (fun _ _ h => aside_pop.trans h) rfl

/-! ## One token -/

/-- The leaf of a token with this label. -/
def leafOf (g : Grammar) (label : Nat) (t : Token) : Leaf :=
  let isKeyword := match g.label? label with
    | some (.keyword _) => true
    | _ => false
  ⟨.ofToken isKeyword t.kind, t.value, t.trivia, t.start⟩

/-- Shift a token onto the innermost frame and close what is complete. -/
def take (g : Grammar) (label target : Nat) (t : Token) (p : Parser) : Parser :=
  let p := (p.moveTo target).addLeaf (leafOf g label t)
  popCompleted p.stack.length p

/-- What becomes of a token with this label. -/
inductive Runs (g : Grammar) (label : Nat) (t : Token) : Parser → Outcome × Parser → Prop
  /-- The start rule was complete before. -/
  | complete {p : Parser} (h : p.stack = []) : Runs g label t p (.ended, p)
  | shift {p : Parser} {top : Frame} {rest : List Frame} {target : Nat} (h : p.stack = top :: rest)
      (h' : move? g label top.arcs = some (.shift target)) :
      Runs g label t p (.shifted (take g label target t p).isDone, take g label target t p)
  | enter {p : Parser} {top : Frame} {rest : List Frame} {sub : RuleTable} {target : Nat}
      {r : Outcome × Parser} (h : p.stack = top :: rest)
      (h' : move? g label top.arcs = some (.enter sub target))
      (next : Runs g label t (p.push sub target) r) : Runs g label t p r
  /-- The start rule ends before the token. -/
  | last {p : Parser} {top : Frame} (h : p.stack = [top]) (h' : move? g label top.arcs = none)
      (h'' : top.rule.accepts top.state = true) : Runs g label t p (.ended, p.pop)
  | close {p : Parser} {top : Frame} {rest : List Frame} {r : Outcome × Parser}
      (h : p.stack = top :: rest) (below : rest ≠ []) (h' : move? g label top.arcs = none)
      (h'' : top.rule.accepts top.state = true) (next : Runs g label t p.pop r) : Runs g label t p r
  | stuck {p : Parser} {top : Frame} {rest : List Frame} (h : p.stack = top :: rest)
      (h' : move? g label top.arcs = none) (h'' : top.rule.accepts top.state = false) :
      Runs g label t p (.stuck, p)

theorem isDone_iff : p.isDone = true ↔ p.stack = [] := List.isEmpty_iff

theorem isDone_pop_iff (h : p.stack = top :: rest) : p.pop.isDone = true ↔ rest = [] := by
  rw [isDone_iff, ← List.length_eq_zero_iff, pop_stack_length h, List.length_eq_zero_iff]

theorem Runs.ne_unfinished (h : Runs g label t p r) : r.1 ≠ .unfinished := by
  induction h with
  | enter _ _ _ ih => exact ih
  | close _ _ _ _ _ ih => exact ih
  | _ => simp

/-- A stuck token leaves an open frame that neither takes it nor may end. -/
theorem Runs.stuck_top (h : Runs g label t p r) (hr : r.1 = .stuck) :
    ∃ top rest, r.2.stack = top :: rest ∧ move? g label top.arcs = none ∧
      top.rule.accepts top.state = false := by
  induction h with
  | enter _ _ _ ih => exact ih hr
  | close _ _ _ _ _ ih => exact ih hr
  | stuck h h' h'' => exact ⟨_, _, h, h', h''⟩
  | _ => cases hr

theorem Runs.done_eq {done : Bool} (h : Runs g label t p r) (hr : r.1 = .shifted done) :
    done = r.2.isDone := by
  induction h with
  | shift => cases hr; rfl
  | enter _ _ _ ih => exact ih hr
  | close _ _ _ _ _ ih => exact ih hr
  | _ => cases hr

/-- After a shift the innermost frame is not complete. -/
theorem Runs.settled {r : Outcome × Parser} {done : Bool} (h : Runs g label t p r)
    (hr : r.1 = .shifted done) (hs : r.2.stack = top :: rest) :
    top.rule.acceptsOnly top.state = false := by
  induction h with
  | shift => exact popCompleted_settled (Nat.le_refl _) hs
  | enter _ _ _ ih => exact ih hr hs
  | close _ _ _ _ _ ih => exact ih hr hs
  | _ => cases hr

theorem Runs.ended_stack (h : Runs g label t p r) (hr : r.1 = .ended) : r.2.stack = [] := by
  induction h with
  | complete h => exact h
  | last h => rw [← isDone_iff, isDone_pop_iff h]
  | enter _ _ _ ih => exact ih hr
  | close _ _ _ _ _ ih => exact ih hr
  | _ => cases hr

/-- What `advance` does in one round, as `Runs` has it: the rest of the rounds follows. -/
theorem runs_round {n : Nat}
    (enter : ∀ {top rest sub target}, p.stack = top :: rest →
      move? g label top.arcs = some (.enter sub target) →
      Runs g label t (p.push sub target) (advance g label t n (p.push sub target)))
    (close : ∀ {top rest}, p.stack = top :: rest → rest ≠ [] → move? g label top.arcs = none →
      Runs g label t p.pop (advance g label t n p.pop)) :
    Runs g label t p (advance g label t (n + 1) p) := by
  rw [advance]
  split
  · next h => exact .complete h
  next top rest h =>
  split
  · next target hm => exact .shift h hm
  · next sub target hm => exact .enter h hm (enter h hm)
  · next hm =>
    split
    · next hacc =>
      dsimp only
      split
      · next hd =>
        have := (isDone_pop_iff h).1 hd
        subst this
        exact .last h hm hacc
      · next hd =>
        have hne : rest ≠ [] := fun e => hd ((isDone_pop_iff h).2 e)
        exact .close h hne hm hacc (close h hne hm)
    · next hacc => exact .stuck h hm (by simpa using hacc)

/-- A rule that was just entered for the label takes it, on its own or by way of rules of lower
rank. -/
theorem runs_entered {rank : RuleTable → Nat} (ok : g.Consistent)
    (ranked : ∀ r ∈ g.rules, ∀ a ∈ r.arcs 0, ∀ sub, g.Enters a sub → rank sub < rank r) {n : Nat}
    (h : p.stack = top :: rest) (start : top.state = 0) (known : top.rule ∈ g.rules)
    (first : label ∈ top.rule.first) (rounds : rank top.rule < n) :
    Runs g label t p (advance g label t n p) := by
  induction n generalizing p top rest with
  | zero => omega
  | succ n ih =>
    have arcs : top.arcs = top.rule.arcs 0 := by rw [Frame.arcs, start]
    refine runs_round (fun h' hm => ?_) (fun h' _ hm => ?_) <;>
      (rw [h] at h'; cases h'; rw [arcs] at hm)
    · obtain ⟨a, ha, enters, hf, -⟩ := move?_enter hm
      have lower := ranked top.rule known a ha _ enters
      exact ih (push_stack h) rfl enters.mem hf (by simp only; omega)
    · exact absurd hm (move?_first ok known first)

/-- The rounds that `shift` allows are enough. -/
theorem runs_advance (ok : g.Consistent) (known : Known g p) {n : Nat}
    (rounds : p.stack.length + g.rules.size < n) :
    Runs g label t p (advance g label t n p) := by
  obtain ⟨rank, bounded, ranked⟩ := ok.rank
  induction n generalizing p with
  | zero => omega
  | succ n ih =>
    refine runs_round (fun {top rest sub target} h hm => ?_) (fun {top rest} h _ _ => ?_)
    · obtain ⟨a, -, enters, hf, -⟩ := move?_enter hm
      have := bounded sub enters.mem
      exact runs_entered ok ranked (push_stack h) rfl enters.mem hf (by simp only; omega)
    · have shorter := pop_stack_length h
      rw [h, List.length_cons] at rounds
      exact ih known.pop (by omega)

/-- A parser of a description's tables that knows its rules is never short of rounds. -/
theorem runs_shift (ok : g.Consistent) (known : Known g p) (h : classify g t = some label) :
    Runs g label t p (shift g t p) := by
  rw [shift, h]
  exact runs_advance ok known (Nat.lt_succ_self _)

/-! ## What a token leaves -/

/-- A rule that was just entered for the label takes it. -/
theorem Runs.shifts (ok : g.Consistent) (h : Runs g label t p r)
    (hs : p.stack = top :: rest) (start : top.state = 0) (known : top.rule ∈ g.rules)
    (first : label ∈ top.rule.first) : ∃ done, r.1 = .shifted done := by
  have some : move? g label top.arcs ≠ none := by
    rw [Frame.arcs, start]; exact move?_first ok known first
  induction h generalizing top rest with
  | complete h => rw [h] at hs; cases hs
  | shift => exact ⟨_, rfl⟩
  | enter h hm _ ih =>
    obtain ⟨a, -, enters, hf, -⟩ := move?_enter hm
    exact ih (push_stack h) rfl enters.mem hf (move?_first ok enters.mem hf)
  | last h hm => rw [h] at hs; cases hs; exact absurd hm some
  | close h _ hm => rw [h] at hs; cases hs; exact absurd hm some
  | stuck h hm => rw [h] at hs; cases hs; exact absurd hm some

/-- A token that is not shifted has only closed rules. -/
theorem Runs.spine_drop (ok : g.Consistent) (h : Runs g label t p r)
    (not : ∀ done, r.1 ≠ .shifted done) : ∃ k, r.2.spine = p.spine.drop k := by
  induction h with
  | complete => exact ⟨0, rfl⟩
  | shift => exact absurd rfl (not _)
  | enter h hm next =>
    obtain ⟨a, -, enters, hf, -⟩ := move?_enter hm
    obtain ⟨done, shifted⟩ := Runs.shifts ok next (push_stack h) rfl enters.mem hf
    exact absurd shifted (not done)
  | last => exact ⟨1, by rw [spine_pop, List.drop_one]⟩
  | close _ _ _ _ _ ih =>
    obtain ⟨k, hk⟩ := ih not
    exact ⟨1 + k, by rw [hk, spine_pop, ← List.drop_one, List.drop_drop]⟩
  | stuck => exact ⟨0, rfl⟩

/-- Only recovery sets statements aside or drops an opening token, and blocks are counted before a
token is tried. -/
theorem Runs.aside_eq {r : Outcome × Parser} (h : Runs g label t p r) : r.2.aside = p.aside := by
  induction h with
  | complete => rfl
  | shift => simp [take]
  | enter _ _ _ ih => rw [ih, aside_push]
  | last => exact aside_pop
  | close _ _ _ _ _ ih => rw [ih, aside_pop]
  | stuck => rfl

theorem Runs.broken_eq {r : Outcome × Parser} (h : Runs g label t p r) :
    r.2.broken = p.broken := congrArg Prod.fst h.aside_eq

theorem Runs.blocks_eq {r : Outcome × Parser} (h : Runs g label t p r) :
    r.2.blocks = p.blocks := congrArg Prod.snd h.aside_eq

theorem Runs.omitted {r : Outcome × Parser} (h : Runs g label t p r) :
    r.2.omitted = p.omitted := congrArg Prod.fst h.blocks_eq

theorem Known.drop {k : Nat} (h : Known g p) (hk : q.spine = p.spine.drop k) : Known g q := by
  intro f hf
  rw [hk] at hf
  exact h f (List.mem_of_mem_drop hf)

theorem Known.runs (h : Known g p) (runs : Runs g label t p r) :
    Known g r.2 := by
  induction runs with
  | complete => exact h
  | shift hs hm =>
    refine Known.popCompleted ?_
    unfold Known
    rw [spine_addLeaf]
    exact h.moveTo hs
  | enter hs hm _ ih =>
    obtain ⟨a, -, enters, -, -⟩ := move?_enter hm
    exact ih (h.push hs enters.mem)
  | last => exact h.pop
  | close _ _ _ _ _ ih => exact ih h.pop
  | stuck => exact h

/-- What became of one token is known whether or not it has a label. -/
theorem shift_cases {o : Outcome} (ok : g.Consistent) (known : Known g p)
    (h : shift g t p = (o, q)) : (classify g t = none ∧ o = .stuck ∧ q = p) ∨
      ∃ label, classify g t = some label ∧ Runs g label t p (o, q) := by
  cases hl : classify g t with
  | none =>
    rw [shift, hl] at h
    cases h
    exact .inl ⟨rfl, rfl, rfl⟩
  | some label => exact .inr ⟨label, rfl, h ▸ runs_shift ok known hl⟩

/-- A token that is not stuck has a label. -/
theorem shift_runs {o : Outcome} (ok : g.Consistent) (known : Known g p)
    (h : shift g t p = (o, q)) (ho : o ≠ .stuck) :
    ∃ label, classify g t = some label ∧ Runs g label t p (o, q) := by
  rcases shift_cases ok known h with ⟨-, stuck, -⟩ | runs
  · exact absurd stuck ho
  · exact runs

/-- A token is stuck at an open frame, after closing frames only. -/
theorem shift_stuck (ok : g.Consistent) (known : Known g p) (hp : p.stack ≠ [])
    (h : shift g t p = (.stuck, q)) : q.stack ≠ [] ∧ ∃ k, q.spine = p.spine.drop k := by
  rcases shift_cases ok known h with ⟨-, -, rfl⟩ | ⟨label, -, runs⟩
  · exact ⟨hp, 0, rfl⟩
  · obtain ⟨top, rest, hq, -⟩ := runs.stuck_top rfl
    exact ⟨List.ne_nil_of_mem (hq ▸ List.mem_cons_self), runs.spine_drop ok (by simp)⟩

theorem Known.shift {o : Outcome} (ok : g.Consistent) (known : Known g p)
    (h : shift g t p = (o, q)) : Known g q := by
  rcases shift_cases ok known h with ⟨-, -, rfl⟩ | ⟨label, -, runs⟩
  · exact known
  · exact known.runs runs

/-- Rounds are never short. -/
theorem shift_ne_unfinished (ok : g.Consistent) (known : Known g p) :
    (shift g t p).1 ≠ .unfinished := by
  rcases hs : shift g t p with ⟨o, q⟩
  rcases shift_cases ok known hs with ⟨-, rfl, -⟩ | ⟨label, -, runs⟩
  · simp
  · exact runs.ne_unfinished

/-! ## Whether a token is shifted -/

/-- Some frame of a spine takes the label, and all frames above it may end. -/
def Fits (g : Grammar) (label : Nat) : List (RuleTable × Nat) → Prop
  | [] => False
  | (rule, state) :: below =>
    (∃ a ∈ rule.arcs state, g.Takes a label) ∨ (rule.accepts state = true ∧ Fits g label below)

/-- A token is shifted if and only if its label fits. -/
theorem Runs.shifted_iff (ok : g.Consistent) (h : Runs g label t p r) :
    (∃ done, r.1 = .shifted done) ↔ Fits g label p.spine := by
  have none {top : Frame} (hm : move? g label top.arcs = none) :
      ¬ ∃ a ∈ top.rule.arcs top.state, g.Takes a label :=
    fun ⟨a, ha, takes⟩ => move?_none.1 hm a ha takes
  induction h with
  | complete h => simp [spine, spineOf, h, Fits]
  | shift h hm =>
    obtain ⟨a, ha, hl, -⟩ := move?_shift hm
    rw [spine_eq h]
    exact ⟨fun _ => .inl ⟨a, ha, .inl hl⟩, fun _ => ⟨_, rfl⟩⟩
  | enter h hm _ ih =>
    obtain ⟨a, ha, enters, hf, -⟩ := move?_enter hm
    obtain ⟨-, b, hb, takes⟩ := (ok.mem_first enters.mem).1 hf
    refine ih.trans ?_
    rw [spine_push h, spine_eq h]
    exact ⟨fun _ => .inl ⟨a, ha, .inr ⟨_, enters, hf⟩⟩, fun _ => .inl ⟨b, hb, takes⟩⟩
  | last h hm hacc =>
    rw [spine_eq h]
    simp [Fits, none hm, spineOf]
  | close h _ hm hacc _ ih =>
    refine ih.trans ?_
    rw [spine_pop, spine_eq h, Fits, List.tail_cons]
    simp [none hm, hacc]
  | stuck h hm hacc =>
    rw [spine_eq h]
    simp [Fits, none hm, hacc]

end Caret.Parser

import Caret.Proofs.Feeding
/-!
# Feeding a token ends

Two loops feed a token. The inner one enters and closes rules until the token is shifted or stuck;
the outer one recovers and starts the inner one again. `turn` is what they do at one time, without a
limit on how often, and `Goes` is a run of such turns.

A turn that closes a rule or asks for another try leaves fewer frames. A turn that enters a rule
leaves one more, but the rule can start with the token, so that only rules of lower rank are entered
from there on, until one of them takes it. So a run has no more turns than there are frames and
rules.

Results:
* `turn_cases`: what a turn does that is not the last one.
* `Entered.turn`: a rule that was just entered takes the token or enters another.
* `Entered.shifts`: from there on the token is shifted.
* `goes_bounded`: the length of a run.
* `Offers.goes`: what becomes of a token is what a run of turns comes to.
* `fed_ends`: all this for a parser that has been fed any tokens.
-/
namespace Caret.Parser

variable {g : Grammar} {label target : Nat} {t : Token} {p q r : Parser} {top : Frame}
  {rest : List Frame} {rule sub : RuleTable}

/-! ## Turns -/

/-- What a turn does that is not the last one. -/
inductive Act
  /-- A rule is entered. -/
  | enter
  /-- The innermost frame is closed. -/
  | close
  /-- Recovery takes frames off. -/
  | retry
  deriving DecidableEq

/-- What the last turn does. -/
inductive Fate
  /-- The start rule was complete before. -/
  | late
  /-- The token is shifted. -/
  | shifted
  /-- The start rule ends before the token. -/
  | ended
  /-- Recovery keeps the token as an error or drops it. -/
  | absorbed
  deriving DecidableEq

/-- What a turn comes to. -/
inductive Turn
  | goesOn (act : Act) (p : Parser)
  | ends (fate : Fate) (answer : Except ParseError Bool × Parser)

/-- A turn in which no frame takes the token. -/
def turnStuck (t : Token) (p : Parser) : Turn :=
  match recover t p with
  | (true, q) => .goesOn .retry q
  | (false, q) => .ends .absorbed (.ok false, q)

/-- One turn of the loops that feed a token. -/
def turn (g : Grammar) (t : Token) (p : Parser) : Turn :=
  match p.stack with
  | [] => .ends .late (.error (.ofToken t), p)
  | top :: rest =>
    match classify g t with
    | none => turnStuck t p
    | some label =>
      match move? g label top.arcs with
      | some (.shift target) =>
        let q := take g label target t p
        .ends .shifted (.ok q.isDone, q)
      | some (.enter sub target) => .goesOn .enter (p.push sub target)
      | none =>
        if top.rule.accepts top.state then
          if rest.isEmpty then .ends .ended (.error (.ofToken t), p.pop) else .goesOn .close p.pop
        else turnStuck t p

/-- These turns lead from one state to another, one after the other. -/
inductive Goes (g : Grammar) (t : Token) : List Act → Parser → Parser → Prop
  | here (p : Parser) : Goes g t [] p p
  | turn {act : Act} {acts : List Act} {p q r : Parser} (first : turn g t p = .goesOn act q)
      (more : Goes g t acts q r) : Goes g t (act :: acts) p r

variable {act : Act} {acts : List Act} {fate : Fate} {answer : Except ParseError Bool × Parser}

theorem turnStuck_goesOn (h : turnStuck t p = .goesOn act q) :
    act = .retry ∧ recover t p = (true, q) := by
  unfold turnStuck at h
  split at h
  · next again =>
    cases h
    exact ⟨rfl, again⟩
  · cases h

theorem turnStuck_ends (h : turnStuck t p = .ends fate answer) : fate = .absorbed := by
  unfold turnStuck at h
  split at h
  · cases h
  · cases h
    rfl

/-- What a turn does that is not the last one. -/
theorem turn_cases (h : turn g t p = .goesOn act q) : ∃ top rest, p.stack = top :: rest ∧
    ((∃ label sub target, classify g t = some label ∧
        move? g label top.arcs = some (.enter sub target) ∧ act = .enter ∧ q = p.push sub target) ∨
      (rest ≠ [] ∧ act = .close ∧ q = p.pop) ∨
      (act = .retry ∧ recover t p = (true, q))) := by
  unfold turn at h
  split at h
  · cases h
  next top rest open_ =>
  refine ⟨top, rest, open_, ?_⟩
  split at h
  · exact .inr (.inr (turnStuck_goesOn h))
  next label classified =>
  split at h
  · cases h
  · next sub target move =>
    cases h
    exact .inl ⟨label, sub, target, classified, move, rfl, rfl⟩
  · split at h
    · split at h
      · cases h
      · next below =>
        cases h
        exact .inr (.inl ⟨by simpa using below, rfl, rfl⟩)
    · exact .inr (.inr (turnStuck_goesOn h))

/-- The turn that shifts the token. -/
theorem turn_shifted (h : turn g t p = .ends .shifted answer) :
    ∃ label target, answer = (.ok (take g label target t p).isDone, take g label target t p) := by
  unfold turn at h
  split at h
  · cases h
  split at h
  · cases turnStuck_ends h
  split at h
  · cases h
    exact ⟨_, _, rfl⟩
  · cases h
  · split at h
    · split at h <;> cases h
    · cases turnStuck_ends h

theorem turn_stuck (open_ : p.stack = top :: rest)
    (h : ∀ label, classify g t = some label →
      move? g label top.arcs = none ∧ top.rule.accepts top.state = false) :
    turn g t p = turnStuck t p := by
  unfold turn
  rw [open_]
  dsimp only
  split
  · rfl
  · next label classified =>
    obtain ⟨move, more⟩ := h label classified
    rw [move]
    dsimp only
    rw [if_neg (by simp [more])]

theorem Known.turn (known : Known g p) (h : turn g t p = .goesOn act q) : Known g q := by
  obtain ⟨top, rest, open_, ⟨label, sub, target, -, move, -, rfl⟩ | ⟨-, -, rfl⟩ | ⟨-, again⟩⟩ :=
    turn_cases h
  · obtain ⟨a, -, enters, -, -⟩ := move?_enter move
    exact known.push open_ enters.mem
  · exact known.pop
  · exact known.recover again

/-! ## Runs of turns -/

theorem Goes.append {acts' : List Act} (h : Goes g t acts p q) (h' : Goes g t acts' q r) :
    Goes g t (acts ++ acts') p r := by
  induction h with
  | here => exact h'
  | turn first _ ih => exact .turn first (ih h')

theorem Goes.split {acts' : List Act} (h : Goes g t (acts ++ acts') p r) :
    ∃ q, Goes g t acts p q ∧ Goes g t acts' q r := by
  induction acts generalizing p with
  | nil => exact ⟨p, .here p, h⟩
  | cons act acts ih =>
    cases h with
    | turn first more =>
      obtain ⟨q, front, back⟩ := ih more
      exact ⟨q, .turn first front, back⟩

theorem Known.goes (known : Known g p) (h : Goes g t acts p q) : Known g q := by
  induction h with
  | here => exact known
  | turn first _ ih => exact ih (known.turn first)

/-- The innermost frame is of a rule that was just entered for the label. -/
structure Entered (g : Grammar) (label : Nat) (rule : RuleTable) (p : Parser) : Prop where
  top : ∃ rest, p.stack = ⟨rule, 0, []⟩ :: rest
  known : rule ∈ g.rules
  first : label ∈ rule.first

theorem entered_push (open_ : p.stack = top :: rest)
    (move : move? g label top.arcs = some (.enter sub target)) :
    Entered g label sub (p.push sub target) := by
  obtain ⟨a, -, enters, first, -⟩ := move?_enter move
  exact ⟨⟨_, push_stack open_⟩, enters.mem, first⟩

/-- A rule that was just entered takes the token, or enters a rule that it can start with. -/
theorem Entered.turn (ok : g.Consistent) (classified : classify g t = some label)
    (h : Entered g label rule p) : (∃ answer, turn g t p = .ends .shifted answer) ∨
      ∃ sub q, turn g t p = .goesOn .enter q ∧ Entered g label sub q ∧
        ∃ a ∈ rule.arcs 0, g.Enters a sub := by
  obtain ⟨⟨rest, open_⟩, known, first⟩ := h
  have some := move?_first ok known first
  unfold Parser.turn
  rw [open_, classified]
  dsimp only [Frame.arcs]
  cases move : move? g label (rule.arcs 0) with
  | none => exact absurd move some
  | some m =>
    cases m with
    | shift target => exact .inl ⟨_, rfl⟩
    | enter sub target =>
      obtain ⟨a, ha, enters, -, -⟩ := move?_enter move
      exact .inr ⟨sub, _, rfl, entered_push open_ move, a, ha, enters⟩

section Ranked

variable {rank : RuleTable → Nat}

/-- Behind a rule that was just entered there are only turns that enter rules, and fewer than its
rank. -/
theorem Entered.goes (ok : g.Consistent)
    (ranked : ∀ r ∈ g.rules, ∀ a ∈ r.arcs 0, ∀ sub, g.Enters a sub → rank sub < rank r)
    (classified : classify g t = some label) (h : Entered g label rule p)
    (go : Goes g t acts p q) : (∀ act ∈ acts, act = .enter) ∧ acts.length ≤ rank rule ∧
      ∃ rule', Entered g label rule' q := by
  induction go generalizing rule with
  | here => exact ⟨by simp, Nat.zero_le _, rule, h⟩
  | turn next _ ih =>
    obtain ⟨answer, last⟩ | ⟨sub, q', here, entered, a, ha, enters⟩ := h.turn ok classified
    · rw [next] at last
      cases last
    · rw [next] at here
      cases here
      obtain ⟨all, short, left⟩ := ih entered
      have lower := ranked rule h.known a ha sub enters
      refine ⟨?_, ?_, left⟩
      · simpa using all
      · rw [List.length_cons]
        omega

/-- From a rule that was just entered the token is shifted. -/
theorem Entered.shifts (ok : g.Consistent)
    (ranked : ∀ r ∈ g.rules, ∀ a ∈ r.arcs 0, ∀ sub, g.Enters a sub → rank sub < rank r)
    (classified : classify g t = some label) (h : Entered g label rule p) :
    ∃ acts q answer, Goes g t acts p q ∧ Parser.turn g t q = .ends .shifted answer := by
  induction hn : rank rule using Nat.strong_induction_on generalizing rule p with
  | h n ih =>
    obtain ⟨answer, last⟩ | ⟨sub, q, next, entered, a, ha, enters⟩ := h.turn ok classified
    · exact ⟨[], p, answer, .here p, last⟩
    · have lower := ranked rule h.known a ha sub enters
      obtain ⟨acts, q', answer, go, last⟩ := ih _ (hn ▸ lower) entered rfl
      exact ⟨.enter :: acts, q', answer, .turn next go, last⟩

end Ranked

/-- A run has no more turns than there are frames and rules. -/
theorem goes_bounded (ok : g.Consistent) (known : Known g p) (go : Goes g t acts p q) :
    acts.length ≤ p.stack.length + g.rules.size := by
  obtain ⟨rank, bounded, ranked⟩ := ok.rank
  -- a frame for each turn until a rule is entered, and a rank for each turn from there on
  induction go with
  | here => exact Nat.zero_le _
  | turn next more ih =>
    have ih := ih (known.turn next)
    rw [List.length_cons]
    obtain ⟨top, rest, open_, ⟨label, sub, target, classified, move, -, rfl⟩ | ⟨-, -, rfl⟩ |
      ⟨-, again⟩⟩ := turn_cases next
    · have entered := entered_push open_ move
      have short := (entered.goes ok ranked classified more).2.1
      have := bounded sub entered.known
      omega
    · rw [pop_stack_length open_] at ih
      rw [open_, List.length_cons]
      omega
    · have := recover_shortens again
      omega

/-- Behind a turn that enters a rule there are only such turns, and the token is shifted. -/
theorem goes_entered {front back : List Act} (ok : g.Consistent)
    (go : Goes g t (front ++ .enter :: back) p q) : (∀ act ∈ back, act = .enter) ∧
      ∃ more q' answer, Goes g t more q q' ∧ turn g t q' = .ends .shifted answer := by
  obtain ⟨rank, -, ranked⟩ := ok.rank
  obtain ⟨m, -, behind⟩ := go.split
  cases behind with
  | turn next more =>
    obtain ⟨top, rest, open_, ⟨label, sub, target, classified, move, -, rfl⟩ | ⟨-, no, -⟩ |
      ⟨no, -⟩⟩ := turn_cases next
    · obtain ⟨all, -, rule, entered⟩ :=
        (entered_push open_ move).goes ok ranked classified more
      exact ⟨all, entered.shifts ok ranked classified⟩
    · cases no
    · cases no

/-! ## What the runs come to -/

/-- What the inner loop comes to is told by the turn behind the run. -/
inductive Concludes (g : Grammar) (t : Token) : Parser → Outcome × Parser → Prop
  | shifted {p q : Parser} {done : Bool} (h : turn g t p = .ends .shifted (.ok done, q)) :
      Concludes g t p (.shifted done, q)
  | ended {p q : Parser} {fate : Fate} (h : turn g t p = .ends fate (.error (.ofToken t), q)) :
      Concludes g t p (.ended, q)
  | stuck {p : Parser} (h : turn g t p = turnStuck t p) : Concludes g t p (.stuck, p)

theorem Runs.goes {r : Outcome × Parser} (classified : classify g t = some label)
    (h : Runs g label t p r) : ∃ acts q, Goes g t acts p q ∧ Concludes g t q r := by
  induction h with
  | @complete p open_ =>
    have late : turn g t p = .ends .late (.error (.ofToken t), p) := by rw [turn, open_]
    exact ⟨[], p, .here p, .ended late⟩
  | shift open_ move =>
    exact ⟨[], _, .here _, .shifted (by rw [turn, open_, classified]; simp only [move])⟩
  | enter open_ move _ ih =>
    obtain ⟨acts, q, go, last⟩ := ih
    refine ⟨.enter :: acts, q, .turn ?_ go, last⟩
    rw [turn, open_, classified]
    simp only [move]
  | @last p top open_ move ends =>
    have ended : turn g t p = .ends .ended (.error (.ofToken t), p.pop) := by
      rw [turn, open_, classified]
      simp [move, ends]
    exact ⟨[], p, .here p, .ended ended⟩
  | close open_ below move ends _ ih =>
    obtain ⟨acts, q, go, last⟩ := ih
    refine ⟨.close :: acts, q, .turn ?_ go, last⟩
    rw [turn, open_, classified]
    simp [move, ends, below]
  | stuck open_ move more =>
    refine ⟨[], _, .here _, .stuck (turn_stuck open_ fun l hl => ?_)⟩
    rw [classified] at hl
    cases hl
    exact ⟨move, more⟩

/-- One run of the inner loop, as turns. -/
theorem shift_goes (ok : g.Consistent) (known : Known g p) (open_ : p.stack ≠ []) :
    ∃ acts q, Goes g t acts p q ∧ Concludes g t q (shift g t p) := by
  rcases hs : shift g t p with ⟨o, q⟩
  rcases shift_cases ok known hs with ⟨classified, rfl, rfl⟩ | ⟨label, classified, runs⟩
  · obtain ⟨top, rest, open_⟩ := List.exists_cons_of_ne_nil open_
    refine ⟨[], _, .here _, .stuck (turn_stuck open_ fun l hl => ?_)⟩
    rw [classified] at hl
    cases hl
  · exact runs.goes classified

/-- What becomes of a token is what a run of turns comes to. -/
theorem Offers.goes (ok : g.Consistent) (known : Known g p) (h : Offers g t p answer) :
    ∃ acts q fate, Goes g t acts p q ∧ turn g t q = .ends fate answer := by
  induction h with
  | complete open_ => exact ⟨[], _, .late, .here _, by rw [turn, open_]⟩
  | shifted open_ shifts =>
    obtain ⟨acts, q, go, last⟩ := shift_goes (t := t) ok known open_
    rw [shifts] at last
    cases last with
    | shifted h => exact ⟨acts, q, _, go, h⟩
  | ended open_ ends =>
    obtain ⟨acts, q, go, last⟩ := shift_goes (t := t) ok known open_
    rw [ends] at last
    cases last with
    | ended h => exact ⟨acts, q, _, go, h⟩
  | again open_ stuck again _ ih =>
    obtain ⟨acts, q, go, last⟩ := shift_goes (t := t) ok known open_
    rw [stuck] at last
    cases last with
    | stuck h =>
      rw [turnStuck, again] at h
      obtain ⟨acts', q', fate, go', last'⟩ := ih ((known.goes go).turn h)
      exact ⟨acts ++ .retry :: acts', q', fate, go.append (.turn h go'), last'⟩
  | absorbed open_ stuck absorbed =>
    obtain ⟨acts, q, go, last⟩ := shift_goes (t := t) ok known open_
    rw [stuck] at last
    cases last with
    | stuck h =>
      rw [turnStuck, absorbed] at h
      exact ⟨acts, _, _, go, h⟩

/-! ## Feeding -/

/-- Feeding this token to this parser comes to an end. -/
structure FeedEnds (g : Grammar) (t : Token) (p : Parser) : Prop where
  /-- A token that closes a block whose opening was dropped is dropped before any turn. Else there
  is a run of turns behind which the next one ends with what feeding the token gives. -/
  answered : if p.closesOmitted t.kind then
      feed g t p = (.ok false, { p with omitted := p.omitted.tail })
    else ∃ acts q fate, Goes g t acts (p.count t.kind) q ∧ turn g t q = .ends fate (feed g t p)
  /-- Every run of turns has at most as many as there are frames and rules. -/
  bounded : ∀ {acts q}, Goes g t acts (p.count t.kind) q →
    acts.length ≤ p.stack.length + g.rules.size
  /-- Behind a turn that enters a rule there are only turns that enter rules, up to one that shifts
  the token. -/
  entered : ∀ {front back q}, Goes g t (front ++ .enter :: back) (p.count t.kind) q →
    (∀ act ∈ back, act = .enter) ∧
      ∃ more q' answer, Goes g t more q q' ∧ turn g t q' = .ends .shifted answer
  /-- Recovery asks for another try with fewer frames only. -/
  retried : ∀ {q q'}, recover t q = (true, q') → q'.stack.length < q.stack.length
  /-- Behind a shift no frame is left to close that can do nothing but end. -/
  settled : ∀ {q answer top rest}, turn g t q = .ends .shifted answer →
    answer.2.stack = top :: rest → top.rule.acceptsOnly top.state = false

/-- With the tables of a description, feeding any token comes to an end, whatever was fed before. -/
theorem fed_ends {lines : List Text} (compiled : Grammar.ofLines lines = .ok g)
    (tokens : List Token) (t : Token) : FeedEnds g t (fed g tokens) := by
  have ok := Grammar.consistent_of_ofLines compiled
  have known := known_fed ok tokens
  refine ⟨?_, fun go => ?_, fun go => goes_entered ok go, recover_shortens, fun last open_ => ?_⟩
  · rcases feed_cases ok known (t := t) with ⟨drops, dropped⟩ | ⟨offered, offers⟩
    · rwa [if_pos drops]
    · rw [if_neg (by simp [offered])]
      exact offers.goes ok known.count
  · have short := goes_bounded ok known.count go
    rwa [stack_count] at short
  · obtain ⟨label, target, rfl⟩ := turn_shifted last
    exact popCompleted_settled (Nat.le_refl _) open_

/-- Behind a name two frames are open. The end marker closes the upper one and completes the start
rule, which takes four turns at most and one more. -/
theorem fed_ends_after_name :
    ∃ g, Grammar.ofLines ["s: e ENDMARKER".toList, "e: NAME ['if' NAME]".toList] = .ok g ∧
      (fed g [⟨.name, ['x'], [], .start⟩]).stack.map (·.rule.name) = ["e", "s"] ∧
      FeedEnds g ⟨.endMarker, [], [], .start⟩ (fed g [⟨.name, ['x'], [], .start⟩]) ∧
      ∃ acts q fate p, acts.length ≤ 4 ∧
        Goes g ⟨.endMarker, [], [], .start⟩ acts (fed g [⟨.name, ['x'], [], .start⟩]) q ∧
        turn g ⟨.endMarker, [], [], .start⟩ q = .ends fate (.ok true, p) ∧ p.stack = [] := by
  have computed : (Grammar.ofLines
      ["s: e ENDMARKER".toList, "e: NAME ['if' NAME]".toList]).toOption.any (fun g =>
        let p := fed g [⟨.name, ['x'], [], .start⟩]
        let answer := feed g ⟨.endMarker, [], [], .start⟩ p
        p.stack.map (·.rule.name) == ["e", "s"] && g.rules.size == 2 &&
          answer.1.toOption == some true && answer.2.isDone) = true := by
    decide +kernel
  obtain ⟨g, compiled, facts⟩ := Except.exists_ok_any computed
  simp only [Bool.and_eq_true, beq_iff_eq] at facts
  obtain ⟨⟨⟨names, rules⟩, completes⟩, done⟩ := facts
  have ends := fed_ends compiled [⟨.name, ['x'], [], .start⟩] ⟨.endMarker, [], [], .start⟩
  refine ⟨g, compiled, names, ends, ?_⟩
  obtain ⟨acts, q, fate, go, last⟩ := ends.answered
  have frames := congrArg List.length names
  rw [List.length_map] at frames
  have short := ends.bounded go
  rw [frames, rules] at short
  rcases answer : feed g ⟨.endMarker, [], [], .start⟩ (fed g [⟨.name, ['x'], [], .start⟩])
    with ⟨_ | _, p⟩
  all_goals
    rw [answer] at completes done last
    cases completes
  exact ⟨acts, q, fate, p, short, go, last, isDone_iff.1 done⟩

end Caret.Parser

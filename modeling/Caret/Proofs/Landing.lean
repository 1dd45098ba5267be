import Caret.Proofs.Faults
import Caret.Proofs.Growth
import Caret.Proofs.Tracing
/-!
# Tokens that are shifted, and the one that is not

Which frames a token leaves on the stack can be told from the stack before, frame by frame: rules
are entered until one takes the token. Tokens that are shifted one after the other lead from a stack
to a stack. A token that no frame takes sets aside what stands above the innermost frame for
statements; what was set aside first stays the first, whatever is fed behind it.

Results:
* `Lands`: a token leads from a stack to a stack.
* `Stacks`: so do tokens that are shifted one after the other.
* `Stacks.feedFrom`: feeding them leads there.
* `recover_file`: what recovery sets aside where only the source is open for statements.
* `Module.parse_sets_aside`: the first statement that is set aside in a source.
-/
namespace Caret

/-- The token opens and closes no block. -/
def Token.IsFlat (t : Token) : Prop := t.kind ≠ .indent ∧ t.kind ≠ .dedent

namespace Parser

variable {g : Grammar} {label target : Nat} {t : Token} {p q : Parser} {top : Frame}
  {rest stack stack' : List Frame} {sub rule : RuleTable} {state : Nat} {l : Leaf}
  {ts us : List Token} {below : List (RuleTable × Nat)}

/-! ## One token -/

/-- With this label a leaf comes onto the stack: rules are entered, and the last of them takes it
and goes on. -/
inductive Lands (g : Grammar) (label : Nat) (l : Leaf) : List Frame → List Frame → Prop
  | shift {rule : RuleTable} {state target : Nat} {children : List Tree} {rest : List Frame}
      (h : move? g label (rule.arcs state) = some (.shift target))
      (goesOn : rule.acceptsOnly target = false) :
      Lands g label l (⟨rule, state, children⟩ :: rest)
        (⟨rule, target, children ++ [.leaf l]⟩ :: rest)
  | enter {rule sub : RuleTable} {state target : Nat} {children : List Tree}
      {rest stack : List Frame} (h : move? g label (rule.arcs state) = some (.enter sub target))
      (next : Lands g label l (⟨sub, 0, []⟩ :: ⟨rule, target, children⟩ :: rest) stack) :
      Lands g label l (⟨rule, state, children⟩ :: rest) stack

theorem popCompleted_open {k : Nat} (hs : p.stack = top :: rest)
    (goesOn : top.rule.acceptsOnly top.state = false) : popCompleted k p = p := by
  cases k with
  | zero => rfl
  | succ k =>
    rw [popCompleted, hs]
    dsimp only
    rw [goesOn, if_neg Bool.false_ne_true]

/-- A token that is taken by a rule that goes on is a child of it. -/
theorem take_stack (hs : p.stack = top :: rest) (goesOn : top.rule.acceptsOnly target = false) :
    (take g label target t p).stack =
      ⟨top.rule, target, top.children ++ [.leaf (leafOf g label t)]⟩ :: rest := by
  have moved : (p.moveTo target).stack = { top with state := target } :: rest := moveTo_stack hs
  obtain ⟨-, stack⟩ := addLeaf_open (l := leafOf g label t) moved
  rw [take, popCompleted_open stack goesOn, stack]
  rfl

theorem Lands.runs {x : Outcome × Parser} (h : Lands g label (leafOf g label t) p.stack stack)
    (runs : Runs g label t p x) : ∃ done q, x = (.shifted done, q) ∧ q.stack = stack := by
  generalize hs : p.stack = frames at h
  induction h generalizing p with
  | shift hm goesOn => exact ⟨_, _, runs.of_shift (spine_eq hs) hm, take_stack hs goesOn⟩
  | enter hm _ ih => exact ih (runs.of_enter (spine_eq hs) hm).1 (push_stack hs)

/-- A token that opens and closes no block is offered to the stack as it is. -/
theorem feed_flat (ok : g.Consistent) (known : Known g p) (flat : t.IsFlat) :
    Offers g t p (feed g t p) := by
  have same : p.count t.kind = p := by
    cases kind : t.kind with
    | indent => exact absurd kind flat.1
    | dedent => exact absurd kind flat.2
    | _ => rfl
  rcases feed_cases ok known (t := t) with ⟨closes, -⟩ | ⟨-, offers⟩
  · simp [closesOmitted, flat.2] at closes
  · rwa [same] at offers

theorem Lands.feed (ok : g.Consistent) (known : Known g p) (flat : t.IsFlat)
    (class_ : classify g t = some label)
    (h : Lands g label (leafOf g label t) p.stack stack) :
    (feed g t p).2.stack = stack ∧ (feed g t p).2.broken = p.broken := by
  obtain ⟨done, q, shifted, hq⟩ := h.runs (runs_shift ok known class_)
  have same := shift_broken ok known shifted
  generalize hx : Parser.feed g t p = x
  have offers := feed_flat ok known flat
  rw [hx] at offers
  cases offers with
  | complete empty =>
    rw [empty] at h
    cases h
  | shifted _ h' =>
    rw [shifted] at h'
    cases h'
    exact ⟨hq, same⟩
  | ended _ h' | again _ h' | absorbed _ h' =>
    rw [shifted] at h'
    cases h'

/-! ## One token after the other -/

/-- The tokens are shifted one after the other and lead from a stack to a stack. -/
inductive Stacks (g : Grammar) : List Token → List Frame → List Frame → Prop
  | nil (stack : List Frame) : Stacks g [] stack stack
  | cons {t : Token} {ts : List Token} {label : Nat} {stack stack' stack'' : List Frame}
      (flat : t.IsFlat) (class_ : classify g t = some label)
      (h : Lands g label (leafOf g label t) stack stack') (more : Stacks g ts stack' stack'') :
      Stacks g (t :: ts) stack stack''

theorem Stacks.append {stack'' : List Frame} (h : Stacks g ts stack stack')
    (h' : Stacks g us stack' stack'') : Stacks g (ts ++ us) stack stack'' := by
  induction h with
  | nil => exact h'
  | cons flat class_ lands _ ih => exact .cons flat class_ lands (ih h')

theorem Stacks.feedFrom (ok : g.Consistent) (known : Known g p) (h : Stacks g ts p.stack stack) :
    (feedFrom g p ts).stack = stack ∧ (feedFrom g p ts).broken = p.broken := by
  generalize hs : p.stack = frames at h
  induction h generalizing p with
  | nil => exact ⟨hs, rfl⟩
  | cons flat class_ lands _ ih =>
    subst hs
    obtain ⟨stack, broken⟩ := lands.feed ok known flat class_
    obtain ⟨last, same⟩ := ih (known.feed ok) stack
    exact ⟨last, same.trans broken⟩

/-! ## A token that no frame takes -/

/-- With this label a token closes rules until one neither takes it nor may end. -/
inductive Refused (g : Grammar) (label : Nat) : List Frame → List Frame → Prop
  | stuck {rule : RuleTable} {state : Nat} {children : List Tree} {rest : List Frame}
      (h : move? g label (rule.arcs state) = none) (refuses : rule.accepts state = false) :
      Refused g label (⟨rule, state, children⟩ :: rest) (⟨rule, state, children⟩ :: rest)
  | close {rule : RuleTable} {state : Nat} {children : List Tree} {below : Frame}
      {rest stack : List Frame} (h : move? g label (rule.arcs state) = none)
      (ends : rule.accepts state = true)
      (next : Refused g label (below.add (Frame.close ⟨rule, state, children⟩) :: rest) stack) :
      Refused g label (⟨rule, state, children⟩ :: below :: rest) stack

/-- Where the innermost frame neither takes the token nor may end, the token is stuck. -/
theorem Runs.of_stuck {x : Outcome × Parser} (runs : Runs g label t p x)
    (hp : p.spine = (rule, state) :: below) (hm : move? g label (rule.arcs state) = none)
    (refuses : rule.accepts state = false) : x = (.stuck, p) := by
  cases runs with
  | complete empty => rw [spine, empty] at hp; cases hp
  | stuck => rfl
  | shift hs hm' | enter hs hm' =>
    obtain ⟨rfl, rfl, -⟩ := spine_top hs hp
    rw [Frame.arcs, hm] at hm'
    cases hm'
  | last hs _ ends | close hs _ _ ends =>
    obtain ⟨rfl, rfl, -⟩ := spine_top hs hp
    rw [refuses] at ends
    cases ends

theorem Refused.runs {x : Outcome × Parser} (h : Refused g label p.stack stack)
    (runs : Runs g label t p x) : ∃ q, x = (.stuck, q) ∧ q.stack = stack := by
  generalize hs : p.stack = frames at h
  induction h generalizing p with
  | stuck hm refuses => exact ⟨p, runs.of_stuck (spine_eq hs) hm refuses, hs⟩
  | @close rule state children below rest stack hm ends _ ih =>
    exact ih (runs.of_close (spine_eq hs) hm ends (List.cons_ne_nil _ _)).1 (pop_inner hs).1

/-- Frames that take no statement stand above the one at which the stack is cut. -/
theorem cut?_at {above : List Frame} {container : Frame} {below : List Frame}
    (inside : ∀ f ∈ above, takesStatement f = false) (takes : takesStatement container = true)
    (passed : List Frame) :
    cut? passed (above ++ container :: below) =
      some ⟨passed.reverse ++ above, container, below⟩ := by
  induction above generalizing passed with
  | nil => rw [List.nil_append, cut?, takes, Bool.true_or, if_pos rfl, List.append_nil]
  | cons f above ih =>
    have none : (above ++ container :: below).isEmpty = false := by cases above <;> rfl
    rw [List.cons_append, cut?, inside f List.mem_cons_self, none, Bool.or_false,
      if_neg Bool.false_ne_true, ih fun f hf => inside f (List.mem_cons_of_mem _ hf)]
    simp

/-- The frames above that of the source, which alone takes statements, and those of them that
recovery sets aside: from the first with children on, outermost first. -/
structure AboveSource (stack removed : List Frame) : Prop where
  split : ∃ above file, stack = above ++ [file] ∧ file.rule.name = "file_input" ∧
    (∀ f ∈ above, takesStatement f = false) ∧
    above.reverse.dropWhile (·.children.isEmpty) = removed
  some : removed ≠ []

theorem AboveSource.recover {removed : List Frame} (h : AboveSource q.stack removed) (t : Token) :
    (recover t q).1 = true ∧ (recover t q).2.broken = q.broken ++ [setAside t removed] := by
  obtain ⟨⟨above, file, hs, name, inside, split⟩, some⟩ := h
  obtain ⟨first, others, rfl⟩ := List.exists_cons_of_ne_nil some
  have takes : takesStatement file = true := by simp [takesStatement, name]
  have cut : cut? [] q.stack = .some ⟨above, file, []⟩ := by
    rw [hs, cut?_at inside takes, List.reverse_nil, List.nil_append]
  have unfolded : Cut.fold ⟨above, file, []⟩ = ⟨above, file, []⟩ := by simp [Cut.fold, name]
  have removed : (Cut.fold ⟨above, file, []⟩).removed = first :: others := by
    rw [unfolded, Cut.removed, split]
  have recovers := recover_cut (t := t) cut
  generalize (Parser.recover t q).1 = again, (Parser.recover t q).2 = q' at recovers ⊢
  cases recovers with
  | dropped none => rw [removed] at none; cases none
  | misplaced none => rw [removed] at none; cases none
  | removed => exact ⟨rfl, by rw [removed]⟩

/-- What recovery set aside stays while the token is tried again. -/
theorem feed_again (ok : g.Consistent) (known : Known g p) (open_ : p.stack ≠ []) (flat : t.IsFlat)
    (stuck : shift g t p = (.stuck, q)) (again : (recover t q).1 = true) :
    (recover t q).2.broken <+: (feed g t p).2.broken := by
  generalize hx : feed g t p = x
  have offers := feed_flat ok known flat
  rw [hx] at offers
  cases offers with
  | complete empty => exact absurd empty open_
  | shifted _ h | ended _ h =>
    rw [stuck] at h
    cases h
  | again _ h h' next =>
    rw [stuck] at h
    cases h
    rw [h']
    exact next.broken ok ((known.shift ok stuck).recover h')
  | absorbed _ h h' =>
    rw [stuck] at h
    cases h
    rw [h'] at again
    cases again

theorem feedFrom_broken (ok : g.Consistent) (known : Known g p) (ts : List Token) :
    p.broken <+: (feedFrom g p ts).broken := by
  induction ts generalizing p with
  | nil => exact List.prefix_rfl
  | cons t ts ih => exact (feed_broken ok known).trans (ih (known.feed ok))

/-- Where a token is refused, above the source, the frames there are the next statement that is set
aside. -/
theorem Refused.feed {removed : List Frame} (ok : g.Consistent) (known : Known g p)
    (flat : t.IsFlat) (class_ : classify g t = some label) (h : Refused g label p.stack stack)
    (above : AboveSource stack removed) :
    p.broken ++ [setAside t removed] <+: (feed g t p).2.broken := by
  obtain ⟨q, stuck, hq⟩ := h.runs (runs_shift ok known class_)
  have open_ : p.stack ≠ [] := by
    intro empty
    rw [empty] at h
    cases h
  obtain ⟨again, broken⟩ := AboveSource.recover (hq ▸ above) t
  rw [← shift_broken ok known stuck, ← broken]
  exact feed_again ok known open_ flat stuck again

end Parser

namespace Module

open Caret.Parser

variable {g : Grammar} {label : Nat} {t : Token} {ts more : List Token}
  {stack stack' removed : List Frame}

/-- Tokens of a source that are shifted, and one behind them that is refused: what this one sets
aside is the first broken statement of the source. -/
theorem parse_sets_aside (ok : g.Consistent) (lay : g.Layered) {source : Text}
    (tokens : tokenize (completed source) = ts ++ t :: more)
    (front : Stacks g ts (Parser.new g).stack stack) (flat : t.IsFlat)
    (class_ : classify g t = some label) (refused : Refused g label stack stack')
    (above : AboveSource stack' removed) :
    ∃ m rest, parse g source = .ok m ∧ m.broken = setAside t removed :: rest := by
  obtain ⟨hs, none⟩ := front.feedFrom ok (known_new g)
  have known : Known g (feedFrom g (Parser.new g) ts) := (known_new g).feedFrom ok ts
  have first := Refused.feed ok known flat class_ (hs ▸ refused) above
  have whole : fed g (tokenize (completed source)) =
      feedFrom g (Parser.feed g t (feedFrom g (Parser.new g) ts)).2 more := by
    rw [tokens, fed, feedFrom_append]
    rfl
  have stays := first.trans (feedFrom_broken ok (known.feed ok) more)
  rw [← whole, none] at stays
  obtain ⟨rest, broken⟩ := stays
  refine ⟨_, rest, parse_eq ok lay source, ?_⟩
  show ((fed g (tokenize (completed source))).finish g).broken = _
  rw [broken_finish, ← broken]
  rfl

end Module

end Caret

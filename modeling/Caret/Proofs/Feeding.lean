import Caret.Parser.Feed
import Caret.Proofs.Runs
/-!
# What feeding a token can do to the stack

Recovery takes frames off the top and leaves the spine of the others as it is; a recovery that asks
for another try takes at least one off, and a token that is stuck before has only closed rules. So
the tries that `feed` allows are enough, and `Offers` says without counting what becomes of a token.

Results:
* `recover_spine`: what recovery leaves of the spine.
* `offers_offer`: with tables of a description, `offer` gives what `Offers` says.
* `Lasting.feed`: what shifting and recovery keep, feeding a token keeps.
* `Known.feed`, `known_fed`: frames are of rules of the grammar, whatever was fed.
* `closeAll_keeps`: what closing all frames keeps.
-/
namespace Caret.Parser

variable {g : Grammar} {label target : Nat} {t : Token} {p q : Parser} {top : Frame}
  {rest : List Frame} {sub : RuleTable} {arcs : List Arc}

/-! ## Recovery -/

theorem Cut.fold_spine (c : Cut) : spineOf c.fold.stack = spineOf c.stack := by
  have folds := c.foldsTo_fold
  generalize c.fold = d at folds ⊢
  cases folds with
  | same => rfl
  | own _ hb => simp [Cut.stack, spineOf, Frame.add, emptied, hb]
  | outer _ hb => simp [Cut.stack, spineOf, Frame.add, emptied, hb]
  | further _ hb => simp [Cut.stack, spineOf, Frame.add, emptied, hb]

/-- Recovery takes frames off the top and leaves the rules and states of the others. -/
theorem RecoversTo.spine_append {again : Bool} {c : Cut} (hc : cut? [] p.stack = some c)
    (h : RecoversTo t p c again q) : p.spine = spineOf c.fold.above ++ q.spine := by
  have whole : p.spine = spineOf c.fold.above ++ spineOf (c.fold.container :: c.fold.below) := by
    have := c.fold_spine
    rw [cut?_stack hc] at this
    rw [spine, ← List.nil_append p.stack]
    exact this.symm.trans (List.map_append ..)
  cases h <;> exact whole

/-- Recovery leaves the frames from some depth on, with their rules and states. -/
theorem recover_spine {again : Bool} (h : recover t p = (again, q)) :
    ∃ k, q.spine = p.spine.drop k := by
  by_cases open_ : p.stack = []
  · rw [recover_closed open_] at h
    cases h
    exact ⟨0, rfl⟩
  · obtain ⟨c, hc, recovers⟩ := recover_cases open_ h
    exact ⟨_, by rw [recovers.spine_append hc, List.drop_left]⟩

/-- Another try is asked for with fewer frames only. -/
theorem recover_shortens (h : recover t p = (true, q)) : q.stack.length < p.stack.length := by
  have open_ : p.stack ≠ [] := by
    intro closed
    rw [recover_closed closed] at h
    cases h
  obtain ⟨c, hc, recovers⟩ := recover_cases open_ h
  have frames := congrArg List.length (recovers.spine_append hc)
  have taken : c.fold.above ≠ [] := by
    intro none
    cases recovers with
    | removed some => exact some (by rw [Cut.removed, none]; rfl)
  have := List.length_pos_iff.2 taken
  rw [List.length_append, ← stack_length, ← stack_length, spineOf, List.length_map] at frames
  omega

theorem Known.recover {again : Bool} (known : Known g p) (h : recover t p = (again, q)) :
    Known g q := by
  obtain ⟨k, hk⟩ := recover_spine h
  exact known.drop hk

/-! ## Feeding a token -/

/-- What becomes of a token that is tried until it is shifted, absorbed or refused. -/
inductive Offers (g : Grammar) (t : Token) : Parser → Except ParseError Bool × Parser → Prop
  /-- The start rule was complete before. -/
  | complete {p : Parser} (h : p.stack = []) : Offers g t p (.error (.ofToken t), p)
  | shifted {p q : Parser} {done : Bool} (open_ : p.stack ≠ [])
      (h : shift g t p = (.shifted done, q)) : Offers g t p (.ok done, q)
  /-- The start rule ends before the token. -/
  | ended {p q : Parser} (open_ : p.stack ≠ []) (h : shift g t p = (.ended, q)) :
      Offers g t p (.error (.ofToken t), q)
  | again {p q q' : Parser} {r : Except ParseError Bool × Parser} (open_ : p.stack ≠ [])
      (h : shift g t p = (.stuck, q)) (h' : recover t q = (true, q')) (next : Offers g t q' r) :
      Offers g t p r
  | absorbed {p q q' : Parser} (open_ : p.stack ≠ []) (h : shift g t p = (.stuck, q))
      (h' : recover t q = (false, q')) : Offers g t p (.ok false, q')

/-- The tries that are allowed are enough. -/
theorem offers_offer (ok : g.Consistent) (known : Known g p) {n : Nat}
    (tries : p.stack.length < n) : Offers g t p (offer g t n p) := by
  induction n generalizing p with
  | zero => omega
  | succ n ih =>
    rw [offer]
    split
    · next done => exact .complete (isDone_iff.1 done)
    next open_ =>
    rw [isDone_iff] at open_
    split
    · next h => exact .shifted open_ h
    · next h => exact .ended open_ h
    · next q h =>
      obtain ⟨-, k, hk⟩ := shift_stuck ok known open_ h
      split
      · next q' h' =>
        refine .again open_ h h' (ih ((known.shift ok h).recover h') ?_)
        have shorter := recover_shortens h'
        rw [stack_length (p := q), hk, List.length_drop, ← stack_length] at shorter
        omega
      · next h' => exact .absorbed open_ h h'
    · next h => exact absurd (by rw [h]) (shift_ne_unfinished ok known (t := t))

/-- A property of states that shifting a token, recovery and counting blocks keep, as long as frames
are of rules of the grammar. -/
structure Lasting (g : Grammar) (P : Parser → Prop) : Prop where
  shift : ∀ {t : Token} {p q : Parser} {o : Outcome}, Known g p → P p →
    shift g t p = (o, q) → P q
  recover : ∀ {t : Token} {p q : Parser} {again : Bool}, Known g p → p.stack ≠ [] → P p →
    recover t p = (again, q) → P q
  count : ∀ {p : Parser} (omitted : List Nat) (depth : Nat), P p → P { p with omitted, depth }

theorem Lasting.offers {P : Parser → Prop} {r : Except ParseError Bool × Parser}
    (lasting : Lasting g P) (ok : g.Consistent) (offers : Offers g t p r) (known : Known g p)
    (h : P p) : P r.2 := by
  induction offers with
  | complete => exact h
  | shifted _ hs => exact lasting.shift known h hs
  | ended _ hs => exact lasting.shift known h hs
  | again open_ hs hr _ ih =>
    have known' := known.shift ok hs
    exact ih (known'.recover hr)
      (lasting.recover known' (shift_stuck ok known open_ hs).1 (lasting.shift known h hs) hr)
  | absorbed open_ hs hr =>
    exact lasting.recover (known.shift ok hs) (shift_stuck ok known open_ hs).1
      (lasting.shift known h hs) hr

theorem lasting_known (ok : g.Consistent) : Lasting g (Known g) :=
  ⟨fun h _ hs => h.shift ok hs, fun h _ _ hr => h.recover hr, fun _ _ h => h⟩

@[simp] theorem spine_count (kind : TokenKind) : (p.count kind).spine = p.spine := by
  rw [count_eq]
  rfl

@[simp] theorem stack_count (kind : TokenKind) : (p.count kind).stack = p.stack := by
  rw [count_eq]

@[simp] theorem root_count (kind : TokenKind) : (p.count kind).root = p.root := by
  rw [count_eq]

theorem Known.count {kind : TokenKind} (h : Known g p) : Known g (p.count kind) := by
  intro f hf
  rw [spine_count] at hf
  exact h f hf

/-- A token closes a block whose opening was dropped, or is offered. -/
theorem feed_cases (ok : g.Consistent) (known : Known g p) :
    (p.closesOmitted t.kind = true ∧
        feed g t p = (.ok false, { p with omitted := p.omitted.tail })) ∨
      (p.closesOmitted t.kind = false ∧ Offers g t (p.count t.kind) (feed g t p)) := by
  unfold feed
  split
  · next h => exact .inl ⟨h, rfl⟩
  · next h =>
    exact .inr ⟨by simpa using h, offers_offer ok known.count (by rw [stack_count]; omega)⟩

theorem Lasting.feed {P : Parser → Prop} (lasting : Lasting g P) (ok : g.Consistent)
    (known : Known g p) (h : P p) : P (feed g t p).2 := by
  rcases feed_cases ok known (t := t) with ⟨-, hf⟩ | ⟨-, offers⟩
  · rw [hf]
    exact lasting.count p.omitted.tail p.depth h
  · refine lasting.offers ok offers known.count ?_
    rw [count_eq]
    exact lasting.count p.omitted (p.count t.kind).depth h

theorem Known.feed (ok : g.Consistent) (h : Known g p) : Known g (feed g t p).2 :=
  (lasting_known ok).feed ok h h

/-- The state after these tokens, whatever was said to them. -/
def feedFrom (g : Grammar) (p : Parser) (tokens : List Token) : Parser :=
  tokens.foldl (fun p t => (feed g t p).2) p

/-- The state of a new parser after these tokens. -/
def fed (g : Grammar) (tokens : List Token) : Parser := feedFrom g (new g) tokens

theorem known_new (g : Grammar) : Known g (new g) := by
  intro f hf
  cases hs : g.start? with
  | none => simp [spine, spineOf, new, hs] at hf
  | some rule =>
    rw [spine_eq (new_stack hs)] at hf
    rw [List.mem_singleton.1 hf]
    exact Array.mem_of_getElem? hs

theorem Lasting.feedFrom {P : Parser → Prop} (lasting : Lasting g P) (ok : g.Consistent)
    (known : Known g p) (h : P p) (tokens : List Token) : P (feedFrom g p tokens) := by
  induction tokens generalizing p with
  | nil => exact h
  | cons t rest ih => exact ih (known.feed ok) (lasting.feed ok known h)

theorem Known.feedFrom (ok : g.Consistent) (h : Known g p) (tokens : List Token) :
    Known g (feedFrom g p tokens) :=
  (lasting_known ok).feedFrom ok h h tokens

theorem known_fed (ok : g.Consistent) (tokens : List Token) : Known g (fed g tokens) :=
  (known_new g).feedFrom ok tokens

/-! ## Closing all frames -/

/-- What dropping an inner frame without children and closing any other frame keeps, closing all
frames keeps. -/
theorem closeAll_keeps {P : Parser → Prop} {n : Nat}
    (drop : ∀ {p : Parser} {top : Frame} {rest : List Frame}, p.stack = top :: rest →
      top.children = [] → rest ≠ [] → P p → P { p with stack := rest })
    (pop : ∀ {p : Parser} {top : Frame} {rest : List Frame}, p.stack = top :: rest →
      (top.children ≠ [] ∨ rest = []) → P p → P p.pop) (h : P p) : P (closeAll n p) := by
  induction n generalizing p with
  | zero => exact h
  | succ n ih =>
    unfold closeAll
    split
    · exact h
    · next top rest hs =>
      split
      · next drops =>
        rw [Bool.and_eq_true, List.isEmpty_iff, Bool.not_eq_true', List.isEmpty_eq_false_iff]
          at drops
        exact ih (drop hs drops.1 drops.2 h)
      · next closes =>
        refine ih (pop hs ?_ h)
        by_cases none : top.children = []
        · exact .inr (by simpa [none] using closes)
        · exact .inl none

/-- No frame is open then. -/
theorem closeAll_stack {n : Nat} (h : p.stack.length ≤ n) : (closeAll n p).stack = [] := by
  induction n generalizing p with
  | zero => exact List.length_eq_zero_iff.1 (Nat.le_zero.1 h)
  | succ n ih =>
    unfold closeAll
    split
    · next hs => exact hs
    · next top rest hs =>
      rw [hs, List.length_cons] at h
      split
      · exact ih (Nat.le_of_succ_le_succ h)
      · exact ih (by rw [pop_stack_length hs]; omega)

end Caret.Parser

import Caret.Proofs.Answers
import Caret.Proofs.BlockFrames
import Caret.Proofs.PythonPrediction
/-!
# Parses without recovery

A token that does not start recovery is shifted, so a parse without recovery shifts every token. The
frames hang together whatever is fed (`Linked`), and no rule enters the start rule, so the end
marker, which only the start rule takes, ends the parse. Then the parser has accepted the tokens.

Results:
* `Linked.feed`: feeding a token keeps the frames hanging together, recovery or not.
* `Runs.sealed`: once the end marker is shifted no frame is open.
* `Clean`, `Clean.reads`: tokens that never start recovery are shifted one after the other; whether
  they are such tokens can be computed.
* `Clean.accepts`: a parser accepts the tokens of a source if none of them starts recovery.
* `parse_eq`: a parsed source is what is left after feeding all its tokens.
-/
namespace Caret

/-- Only the start rule has its name. No rule enters it, and it alone takes the end marker, and ends
with it. -/
structure Grammar.Sealed (g : Grammar) : Prop where
  named : ∀ {r : RuleTable}, r ∈ g.rules → r.name = "file_input" → g.start? = some r
  outermost : ∀ {r sub : RuleTable} {s : Nat} {a : Arc}, r ∈ g.rules → a ∈ r.arcs s →
    g.Enters a sub → g.start? ≠ some sub
  ends : ∀ {r : RuleTable} {s : Nat} {a : Arc}, r ∈ g.rules → a ∈ r.arcs s →
    g.label? a.label = some (.token .endMarker) →
      g.start? = some r ∧ r.acceptsOnly a.target = true

namespace Parser

variable {g : Grammar} {label target : Nat} {t : Token} {p q : Parser} {top : Frame}
  {rest : List Frame} {sub : RuleTable} {tokens : List Token}

/-! ## Frames hang together -/

theorem Linked.drop {spine : List (RuleTable × Nat)} (h : Linked g spine) (k : Nat) :
    Linked g (spine.drop k) := by
  induction k generalizing spine with
  | zero => exact h
  | succ k ih =>
    cases spine with
    | nil => exact h
    | cons f spine => exact ih h.tail

/-- Closing a frame keeps the others hanging together. -/
theorem Linked.pop (h : Linked g p.spine) : Linked g p.pop.spine := by
  rw [spine_pop, ← List.drop_one]
  exact h.drop 1

/-- One token keeps the frames hanging together. -/
theorem Runs.linked {r : Outcome × Parser} (h : Runs g label t p r) (linked : Linked g p.spine) :
    Linked g r.2.spine := by
  induction h with
  | complete => exact linked
  | shift hs =>
    refine Linked.popCompleted ?_
    rw [spine_addLeaf, spine_moveTo hs]
    rw [spine_eq hs] at linked
    exact linked.move
  | enter hs hm _ ih =>
    obtain ⟨a, ha, enters, -, rfl⟩ := move?_enter hm
    apply ih
    rw [spine_push hs]
    rw [spine_eq hs] at linked
    exact .cons ha enters rfl linked.move
  | last => exact linked.pop
  | close _ _ _ _ _ ih => exact ih linked.pop
  | stuck => exact linked

theorem Linked.shift {o : Outcome} (ok : g.Consistent) (known : Known g p)
    (h : Linked g p.spine) (hs : shift g t p = (o, q)) : Linked g q.spine := by
  rcases shift_cases ok known hs with ⟨-, -, rfl⟩ | ⟨label, -, runs⟩
  · exact h
  · exact runs.linked h

/-- Recovery takes frames off the top only. -/
theorem Linked.recover {again : Bool} (h : Linked g p.spine) (hr : recover t p = (again, q)) :
    Linked g q.spine := by
  obtain ⟨k, spine⟩ := recover_spine hr
  rw [spine]
  exact h.drop k

theorem lasting_linked (ok : g.Consistent) : Lasting g fun p => Linked g p.spine :=
  ⟨fun known h hs => h.shift ok known hs, fun _ _ h hr => h.recover hr, fun _ _ h => h⟩

/-- Feeding a token keeps the frames hanging together. -/
theorem Linked.feed (ok : g.Consistent) (known : Known g p) (h : Linked g p.spine) :
    Linked g (feed g t p).2.spine :=
  (lasting_linked ok).feed ok known h

theorem linked_new (ok : g.Consistent) : Linked g (new g).spine := by
  obtain ⟨start, hs⟩ := ok.start
  rw [spine_eq (new_stack hs)]
  exact .start hs

theorem Linked.feedFrom (ok : g.Consistent) (known : Known g p) (h : Linked g p.spine)
    (tokens : List Token) : Linked g (feedFrom g p tokens).spine :=
  (lasting_linked ok).feedFrom ok known h tokens

/-! ## The end of a source -/

/-- No frame but the outermost is that of the start rule. -/
theorem Linked.start_outermost (closed : g.Sealed) {rule : RuleTable} {state : Nat}
    {below : List (RuleTable × Nat)} (known : ∀ f ∈ below, f.1 ∈ g.rules)
    (h : Linked g ((rule, state) :: below)) (start : g.start? = some rule) : below = [] := by
  cases h with
  | start => rfl
  | cons ha hsub =>
    exact absurd start (closed.outermost (known _ List.mem_cons_self) ha hsub)

/-- Once the end marker is shifted no frame is open. -/
theorem Runs.sealed {r : Outcome × Parser} {done : Bool} (closed : g.Sealed)
    (h : Runs g label t p r) (known : Known g p) (linked : Linked g p.spine)
    (marker : g.label? label = some (.token .endMarker)) (hr : r.1 = .shifted done) :
    done = true := by
  induction h with
  | @shift p top rest target hs hm =>
    obtain ⟨a, ha, hlabel, rfl⟩ := move?_shift hm
    rw [← hlabel] at marker
    obtain ⟨start, only⟩ := closed.ends (known.innermost hs) ha marker
    have alone := linked
    rw [spine_eq hs] at alone
    have bottom : spineOf rest = [] := by
      refine alone.start_outermost closed (fun f hf => known f ?_) start
      rw [spine_eq hs]
      exact List.mem_cons_of_mem _ hf
    have empty : rest = [] := List.map_eq_nil_iff.1 bottom
    subst empty
    have moved : (p.moveTo a.target).stack = _ := moveTo_stack hs
    obtain ⟨-, stack⟩ := addLeaf_open (l := leafOf g label t) moved
    cases hr
    rw [isDone_iff, take, stack, List.length_singleton, popCompleted, stack]
    dsimp only
    rw [if_pos (by exact only)]
    exact List.length_eq_zero_iff.1 (pop_stack_length stack)
  | enter hs hm _ ih =>
    obtain ⟨a, ha, enters, -, rfl⟩ := move?_enter hm
    refine ih (known.push hs enters.mem) ?_ hr
    rw [spine_push hs]
    rw [spine_eq hs] at linked
    exact .cons ha enters rfl linked.move
  | close _ _ _ _ _ ih => exact ih known.pop linked.pop hr
  | complete => cases hr
  | last => cases hr
  | stuck => cases hr

/-! ## Without recovery -/

/-- Feeding these tokens from this state on never starts recovery. -/
def Clean (g : Grammar) (p : Parser) (tokens : List Token) : Prop :=
  ∀ before t after, tokens = before ++ t :: after → ¬ Recovers g t (feedFrom g p before)

theorem clean_nil (g : Grammar) (p : Parser) : Clean g p [] := by
  intro before t after split
  simp at split

theorem clean_cons :
    Clean g p (t :: tokens) ↔ ¬ Recovers g t p ∧ Clean g (feed g t p).2 tokens := by
  constructor
  · intro h
    refine ⟨h [] t tokens rfl, fun before u after split => ?_⟩
    exact h (t :: before) u after (by rw [split]; rfl)
  · rintro ⟨first, more⟩ before u after split
    cases before with
    | nil =>
      cases split
      exact first
    | cons t' before =>
      obtain ⟨rfl, split'⟩ := List.cons.inj split
      exact more before u after split'

instance decidableClean (g : Grammar) : (p : Parser) → (tokens : List Token) →
    Decidable (Clean g p tokens)
  | p, [] => isTrue (clean_nil g p)
  | p, t :: tokens =>
    have := decidableClean g (feed g t p).2 tokens
    decidable_of_iff _ clean_cons.symm

theorem Clean.left {more : List Token} (h : Clean g p (tokens ++ more)) : Clean g p tokens := by
  intro before t after split
  exact h before t (after ++ more) (by rw [split, List.append_assoc]; rfl)

/-- A token that does not start recovery is shifted. -/
theorem feed_reads (ok : g.Consistent) (lay : g.Layered) (ready : Ready g p)
    (kept : p.omitted = []) (clean : ¬ Recovers g t p) :
    ∃ label done, classify g t = some label ∧ (feed g t p).1 = .ok done ∧
      Runs g label t (p.count t.kind) (.shifted done, (feed g t p).2) := by
  have none : p.closesOmitted t.kind = false := by simp [closesOmitted, kept]
  have open_ : (p.count t.kind).stack ≠ [] := by
    rw [stack_count]
    exact ready.orderly.ne_nil
  have tried {q : Parser} (h : shift g t (p.count t.kind) = (.stuck, q)) : Recovers g t p := by
    refine ⟨none, ?_, by rw [h]⟩
    rw [← Bool.not_eq_true, isDone_iff, ← stack_count]
    exact open_
  rcases feed_cases ok ready.known (t := t) with ⟨yes, -⟩ | ⟨-, offers⟩
  · rw [none] at yes
    cases yes
  generalize feed g t p = r at offers
  cases offers with
  | complete h => exact absurd h open_
  | shifted _ h =>
    obtain ⟨label, hl, runs⟩ := shift_runs ok ready.known.count h (by simp)
    exact ⟨label, _, hl, rfl, runs⟩
  | ended _ h =>
    obtain ⟨label, -, runs⟩ := shift_runs ok ready.known.count h (by simp)
    have stuck := (runs.orderly_stuck ok lay (ready.count t.kind).orderly (by simp)).1
    cases stuck
  | again _ h => exact absurd (tried h) clean
  | absorbed _ h => exact absurd (tried h) clean

/-- What holds of a parser as long as nothing has started recovery. -/
structure Steadfast (g : Grammar) (p : Parser) : Prop extends Ready g p where
  linked : Linked g p.spine
  kept : p.omitted = []

theorem steadfast_new (ok : g.Consistent) : Steadfast g (new g) :=
  ⟨(ready_new ok).1, linked_new ok, rfl⟩

theorem Steadfast.feed (ok : g.Consistent) (lay : g.Layered) (h : Steadfast g p)
    (clean : ¬ Recovers g t p) (inner : t.kind ≠ .endMarker) : Steadfast g (feed g t p).2 := by
  obtain ⟨-, goesOn, -⟩ := feed_lossless (t := t) ok lay h.toReady
  exact ⟨(goesOn inner).2, h.linked.feed ok h.known, (feed_clean ok h.known h.kept clean).1⟩

/-- All these tokens are shifted, one after the other. -/
inductive Reads (g : Grammar) : Parser → List Token → Prop
  | nil (p : Parser) : Reads g p []
  | cons {p : Parser} {t : Token} {tokens : List Token} {label : Nat} {done : Bool}
      (before : Steadfast g p) (class_ : classify g t = some label)
      (answer : (feed g t p).1 = .ok done)
      (runs : Runs g label t (p.count t.kind) (.shifted done, (feed g t p).2))
      (rest : Reads g (feed g t p).2 tokens) : Reads g p (t :: tokens)

/-- Tokens that do not start recovery, the end marker the last of them if at all, are all shifted.
-/
theorem Clean.reads (ok : g.Consistent) (lay : g.Layered) (h : Clean g p tokens)
    (steadfast : Steadfast g p) (inner : ∀ t ∈ tokens.dropLast, t.kind ≠ .endMarker) :
    Reads g p tokens := by
  induction tokens generalizing p with
  | nil => exact .nil p
  | cons t tokens ih =>
    obtain ⟨clean, more⟩ := clean_cons.1 h
    obtain ⟨label, done, class_, answer, runs⟩ :=
      feed_reads ok lay steadfast.toReady steadfast.kept clean
    refine .cons steadfast class_ answer runs ?_
    cases tokens with
    | nil => exact .nil _
    | cons u tokens =>
      have kind := inner t List.mem_cons_self
      exact ih more (steadfast.feed ok lay clean kind)
        fun v hv => inner v (List.mem_cons_of_mem _ hv)

theorem Clean.steadfast (ok : g.Consistent) (lay : g.Layered) (h : Clean g p tokens)
    (steadfast : Steadfast g p) (inner : ∀ t ∈ tokens, t.kind ≠ .endMarker) :
    Steadfast g (feedFrom g p tokens) := by
  induction tokens generalizing p with
  | nil => exact steadfast
  | cons t tokens ih =>
    obtain ⟨clean, more⟩ := clean_cons.1 h
    exact ih more (steadfast.feed ok lay clean (inner t List.mem_cons_self))
      fun u hu => inner u (List.mem_cons_of_mem _ hu)

/-- If no token of a source starts recovery, the parser accepts the tokens. -/
theorem Clean.accepts (ok : g.Consistent) (lay : g.Layered) (closed : g.Sealed) {body : List Token}
    {last : Token} (inner : ∀ t ∈ body, t.kind ≠ .endMarker) (marker : last.kind = .endMarker)
    (steadfast : Steadfast g p) (h : Clean g p (body ++ [last])) :
    Accepts g p (body ++ [last]) := by
  refine ⟨by simp, fun before t after split => ⟨h before t after split, ?_⟩⟩
  rcases List.eq_nil_or_concat after with rfl | ⟨more, u, rfl⟩
  · obtain ⟨rfl, same⟩ := List.append_inj' split rfl
    obtain ⟨rfl, -⟩ := List.cons.inj same
    -- the end marker is shifted, and that leaves no frame open
    have before := h.left.steadfast ok lay steadfast inner
    obtain ⟨label, done, class_, answer, runs⟩ :=
      feed_reads ok lay before.toReady before.kept (h body last [] rfl)
    have marked : g.label? label = some (.token .endMarker) := by
      rw [classify_token class_ (by rw [marker]; decide), marker]
    have linked : Linked g ((feedFrom g p body).count last.kind).spine := by
      rw [spine_count]
      exact before.linked
    rw [runs.sealed closed before.known.count linked marked rfl] at answer
    exact iff_of_true answer rfl
  · have split' : body ++ [last] = (before ++ t :: more) ++ [u] := by simpa using split
    obtain ⟨rfl, -⟩ := List.append_inj' split' rfl
    have before : Steadfast g (feedFrom g p before) :=
      h.left.left.steadfast ok lay steadfast fun v hv => inner v (List.mem_append_left _ hv)
    obtain ⟨-, goesOn, -⟩ := feed_lossless (t := t) ok lay before.toReady
    rw [(goesOn (inner t (by simp))).1]
    simp

/-- Feeding tokens, the end marker last, feeds all of them. -/
theorem feedAll_eq (ok : g.Consistent) (lay : g.Layered) {body : List Token} {last : Token}
    (inner : ∀ t ∈ body, t.kind ≠ .endMarker) (ready : Ready g p) :
    feedAll g (body ++ [last]) p = .ok (feedFrom g p (body ++ [last])) := by
  induction body generalizing p with
  | nil =>
    obtain ⟨⟨done, answer⟩, -⟩ := feed_lossless (t := last) ok lay ready
    exact feedAll_last (Prod.ext answer rfl)
  | cons t body ih =>
    obtain ⟨-, goesOn, -⟩ := feed_lossless (t := t) ok lay ready
    obtain ⟨answer, ready'⟩ := goesOn (inner t List.mem_cons_self)
    rw [List.cons_append, feedAll_cons (Prod.ext answer rfl), feedFrom_cons]
    exact ih (fun u hu => inner u (List.mem_cons_of_mem _ hu)) ready'

end Parser

/-! ## Sources -/

namespace Grammar

theorem python_sealed : pythonTables.Sealed := by
  have inside : ∀ r ∈ pythonTables.rules.toList, ∀ arcs ∈ r.states.toList, ∀ a ∈ arcs,
      (pythonTables.entered? a).all (·.name != "file_input") = true := by
    decide +kernel
  have marks : ∀ r ∈ pythonTables.rules.toList, ∀ arcs ∈ r.states.toList, ∀ a ∈ arcs,
      pythonTables.label? a.label = some (.token .endMarker) →
        pythonTables.start? = some r ∧ r.acceptsOnly a.target = true := by
    decide +kernel
  have start : ∀ r ∈ pythonTables.rules.toList, r.name = "file_input" →
      pythonTables.start? = some r := by
    decide +kernel
  refine ⟨fun hr => start _ (Array.mem_toList_iff.2 hr), fun {r sub s a} hr ha hsub start => ?_,
    fun {r s a} hr ha marker => ?_⟩
  · have named := inside r (Array.mem_toList_iff.2 hr) _ (arcs_mem_states ha) a ha
    rw [entered?_eq.2 hsub, Option.all_some, python_layered.name start] at named
    exact absurd named (by decide)
  · exact marks r (Array.mem_toList_iff.2 hr) _ (arcs_mem_states ha) a ha marker

end Grammar

namespace Module

variable {g : Grammar}

/-- A parsed source is what feeding all its tokens leaves, closed and finished. -/
theorem parse_eq (ok : g.Consistent) (lay : g.Layered) (source : Text) :
    parse g source = .ok { (Parser.fed g (tokenize (completed source))).finish g with
      addedNewline := !endsLine source } := by
  obtain ⟨body, last, tokens, -, inner⟩ := tokenize_eq (completed source)
  rw [parse, tokens, Parser.feedAll_eq ok lay inner (Parser.ready_new ok).1]
  rfl

end Module

end Caret

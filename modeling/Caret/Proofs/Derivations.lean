import Caret.Proofs.Feeding
/-!
# What the parser accepts is in the language

The open frames stand for words that may still be read: one of the innermost frame's rule from its
state on, then one of the frame below, and so on (`Awaits`). Entering and closing rules gives up
some of these words and adds none, and shifting a token takes the token's label off the front. So
the labels of tokens that were all shifted, up to the end of the start rule, are a word of the
language.

Results:
* `Runs.awaits`: what the stack may read after a shift, it may read before with the label in front.
* `Recovers`: feeding a token starts recovery; without that, `feed_clean` says what feeding does.
* `language_of_accepts`: the labels of accepted tokens are a word of the language.
-/
namespace Caret.Parser

variable {g : Grammar} {label target : Nat} {t : Token} {p q : Parser} {top : Frame}
  {rest : List Frame} {sub rule : RuleTable} {arcs : List Arc} {state : Nat} {a : Arc}
  {below : List (RuleTable × Nat)} {w : List Nat}

/-! ## Words that may still be read -/

/-- The words that a spine stands for. -/
inductive Awaits (g : Grammar) : List (RuleTable × Nat) → List Nat → Prop
  | nil : Awaits g [] []
  | cons {rule : RuleTable} {state : Nat} {below : List (RuleTable × Nat)} {v w : List Nat}
      (h : g.Derives rule state v) (h' : Awaits g below w) :
      Awaits g ((rule, state) :: below) (v ++ w)

theorem Awaits.close (h : rule.accepts state = true) (h' : Awaits g below w) :
    Awaits g ((rule, state) :: below) w := .cons (.finish h) h'

theorem Awaits.enter (ha : a ∈ rule.arcs state) (hsub : g.Enters a sub)
    (h : Awaits g ((sub, 0) :: (rule, a.target) :: below) w) :
    Awaits g ((rule, state) :: below) w := by
  obtain ⟨j, hj, hs⟩ := hsub
  cases h with
  | cons inner h' =>
    cases h' with
    | cons outer h'' =>
      rw [← List.append_assoc]
      exact .cons (.nested ha hj hs inner outer) h''

theorem Awaits.shift (ha : a ∈ rule.arcs state) (hl : g.isTerminal a.label = true)
    (h : Awaits g ((rule, a.target) :: below) w) :
    Awaits g ((rule, state) :: below) (a.label :: w) := by
  cases h with
  | cons h h' => exact .cons (.terminal ha hl h) h'

theorem accepts_of_acceptsOnly (h : rule.acceptsOnly state = true) :
    rule.accepts state = true := by
  rw [RuleTable.acceptsOnly, beq_iff_eq] at h
  rw [RuleTable.accepts, h]
  rfl

/-- Closing complete frames gives up words and adds none. -/
theorem Awaits.popCompleted {n : Nat} (h : Awaits g (popCompleted n p).spine w) :
    Awaits g p.spine w := by
  refine popCompleted_keeps (P := fun q => Awaits g q.spine w → Awaits g p.spine w)
    (fun hs only back h => back ?_) id h
  rw [spine_pop, spine_eq hs, List.tail_cons] at h
  rw [spine_eq hs]
  exact h.close (accepts_of_acceptsOnly only)

/-- What may be read after a token is shifted may be read before, with its label in front. -/
theorem Runs.awaits {r : Outcome × Parser} (h : Runs g label t p r) {done : Bool}
    (hr : r.1 = .shifted done) (hl : g.isTerminal label = true) (hw : Awaits g r.2.spine w) :
    Awaits g p.spine (label :: w) := by
  induction h with
  | complete => cases hr
  | shift h hm =>
    obtain ⟨a, ha, rfl, rfl⟩ := move?_shift hm
    have after := hw.popCompleted
    rw [spine_addLeaf, spine_moveTo h] at after
    rw [spine_eq h]
    exact .shift ha hl after
  | enter h hm _ ih =>
    obtain ⟨a, ha, enters, -, rfl⟩ := move?_enter hm
    have after := ih hr hw
    rw [spine_push h] at after
    rw [spine_eq h]
    exact .enter ha enters after
  | last => cases hr
  | close h _ _ hacc _ ih =>
    have after := ih hr hw
    rw [spine_pop, spine_eq h, List.tail_cons] at after
    rw [spine_eq h]
    exact after.close hacc
  | stuck => cases hr

/-! ## Without recovery -/

@[simp] theorem omitted_count (kind : TokenKind) : (p.count kind).omitted = p.omitted := by
  rw [count_eq]

/-- The label of a token is a reserved word or the token's type. -/
theorem classify_label (h : classify g t = some label) :
    (∃ k, g.label? label = some (.keyword k)) ∨ g.label? label = some (.token t.kind) := by
  rcases Option.or_eq_some_iff.1 h with h | ⟨-, h⟩
  · split at h
    · obtain ⟨k, -, hk⟩ := Option.bind_eq_some_iff.1 h
      exact .inl ⟨k, Grammar.label?_of_idxOf? hk⟩
    · cases h
  · exact .inr (Grammar.label?_of_idxOf? h)

theorem classify_terminal (h : classify g t = some label) : g.isTerminal label = true := by
  rcases classify_label h with ⟨k, hk⟩ | hk <;> rw [Grammar.isTerminal, hk]

/-- Feeding the token starts recovery: it is stuck when it is first tried. -/
def Recovers (g : Grammar) (t : Token) (p : Parser) : Prop :=
  p.closesOmitted t.kind = false ∧ p.isDone = false ∧ (shift g t (p.count t.kind)).1 = .stuck

instance (g : Grammar) (t : Token) (p : Parser) : Decidable (Recovers g t p) :=
  have : Decidable ((shift g t (p.count t.kind)).1 = .stuck) :=
    match (shift g t (p.count t.kind)).1 with
    | .stuck => isTrue rfl
    | .shifted _ | .ended | .unfinished => isFalse nofun
  inferInstanceAs (Decidable (_ ∧ _ ∧ _))

/-- A token that was shifted: its label is taken off the words that may be read. -/
def Shifts (g : Grammar) (t : Token) (p q : Parser) : Prop :=
  ∃ label, classify g t = some label ∧ ∀ w, Awaits g q.spine w → Awaits g p.spine (label :: w)

/-- Without recovery a token is shifted, or the start rule is complete before it. -/
theorem feed_clean (ok : g.Consistent) (known : Known g p) (kept : p.omitted = [])
    (clean : ¬ Recovers g t p) :
    (feed g t p).2.omitted = [] ∧
      ((feed g t p).1 = .ok (feed g t p).2.isDone ∧ Shifts g t p (feed g t p).2 ∨
        (feed g t p).1 = .error (.ofToken t) ∧ (feed g t p).2.stack = []) := by
  have none : p.closesOmitted t.kind = false := by simp [closesOmitted, kept]
  rcases feed_cases ok known (t := t) with ⟨yes, -⟩ | ⟨-, offers⟩
  · rw [none] at yes; cases yes
  have tried {q : Parser} (hp : (p.count t.kind).stack ≠ [])
      (h : shift g t (p.count t.kind) = (.stuck, q)) : Recovers g t p := by
    refine ⟨none, ?_, by rw [h]⟩
    rw [stack_count] at hp
    rw [← Bool.not_eq_true, isDone_iff]
    exact hp
  generalize feed g t p = r at offers
  cases offers with
  | complete h => exact ⟨by simpa using kept, .inr ⟨rfl, h⟩⟩
  | shifted hp h =>
    obtain ⟨label, hl, runs⟩ := shift_runs ok known.count h (by simp)
    refine ⟨?_, .inl ⟨?_, label, hl, fun w hw => ?_⟩⟩
    · simpa [kept] using runs.omitted
    · rw [← runs.done_eq rfl]
    · have := runs.awaits rfl (classify_terminal hl) hw
      rwa [spine_count] at this
  | ended hp h =>
    obtain ⟨label, hl, runs⟩ := shift_runs ok known.count h (by simp)
    refine ⟨?_, .inr ⟨rfl, runs.ended_stack rfl⟩⟩
    simpa [kept] using runs.omitted
  | again hp h => exact absurd (tried hp h) clean
  | absorbed hp h => exact absurd (tried hp h) clean

/-! ## Accepted tokens -/

/-- Feeding the tokens from this state on never starts recovery, and the last of them is the first
that completes the start rule. -/
def Accepts (g : Grammar) (p : Parser) (tokens : List Token) : Prop :=
  tokens ≠ [] ∧ ∀ before t after, tokens = before ++ t :: after →
    ¬ Recovers g t (feedFrom g p before) ∧
      ((feed g t (feedFrom g p before)).1 = .ok true ↔ after = [])

theorem Accepts.tail {tokens : List Token} (h : Accepts g p (t :: tokens)) (hne : tokens ≠ []) :
    Accepts g (feed g t p).2 tokens := by
  refine ⟨hne, ?_⟩
  intro before u after split
  exact h.2 (t :: before) u after (by rw [split]; rfl)

/-- The labels of accepted tokens are a word that the open frames stand for. -/
theorem awaits_of_accepts (ok : g.Consistent) (known : Known g p) (kept : p.omitted = [])
    {tokens : List Token} (h : Accepts g p tokens) :
    ∃ w, tokens.map (classify g) = w.map some ∧ Awaits g p.spine w := by
  induction tokens generalizing p with
  | nil => exact absurd rfl h.1
  | cons t tokens ih =>
    obtain ⟨clean, last⟩ := h.2 [] t tokens rfl
    obtain ⟨kept', ⟨hdone, label, hl, awaits⟩ | ⟨herr, empty⟩⟩ :=
      feed_clean ok known kept (show ¬ Recovers g t p from clean)
    · by_cases hne : tokens = []
      · subst hne
        have complete := last.2 rfl
        rw [show feedFrom g p [] = p from rfl, hdone, Except.ok.injEq, isDone_iff] at complete
        refine ⟨[label], by simp [hl], awaits [] ?_⟩
        rw [spine, complete]
        exact .nil
      · obtain ⟨w, hw, more⟩ := ih (known.feed ok) kept' (h.tail hne)
        exact ⟨label :: w, by simp [hl, hw], awaits w more⟩
    · -- behind the end of the start rule nothing is read, so no token can be the last
      by_cases hne : tokens = []
      · have complete := last.2 hne
        rw [show feedFrom g p [] = p from rfl, herr] at complete
        cases complete
      · obtain ⟨w, hw, more⟩ := ih (known.feed ok) kept' (h.tail hne)
        rw [spine, empty] at more
        cases more
        simp at hw
        exact absurd hw hne

theorem awaits_new {start : RuleTable} (h : g.start? = some start) :
    Awaits g (new g).spine w ↔ g.Language w := by
  rw [spine_eq (new_stack h)]
  constructor
  · intro hw
    cases hw with
    | cons hv hnil =>
      cases hnil
      rw [List.append_nil]
      exact ⟨start, h, hv⟩
  · rintro ⟨r, hr, hw⟩
    rw [h] at hr
    cases hr
    rw [← List.append_nil w]
    exact .cons hw .nil

/-- The labels of tokens that a new parser accepts are a word of the language. -/
theorem language_of_accepts (ok : g.Consistent) {tokens : List Token}
    (h : Accepts g (new g) tokens) :
    ∃ w, tokens.map (classify g) = w.map some ∧ g.Language w := by
  obtain ⟨start, hs⟩ := ok.start
  obtain ⟨w, hw, awaits⟩ := awaits_of_accepts ok (known_new g) rfl h
  exact ⟨w, hw, (awaits_new hs).1 awaits⟩

end Caret.Parser

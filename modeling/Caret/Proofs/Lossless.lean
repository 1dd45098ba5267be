import Caret.Module
import Caret.Proofs.Leaves
import Caret.Proofs.PythonPrediction
import Caret.Proofs.Scanning
/-!
# Nothing of a source is lost, however broken

Recovery moves a simple statement over the frame below it, so that frame must be empty: with the
Python grammar simple statements are entered from the first state of a statement or a block only,
which is never come back to, and a frame in that state has no children yet. Recovery adds to frames
that have left it (`Orderly`). The outermost frame stays in the first state of the start rule until
the end marker comes, so the start rule is not complete before.

Results:
* `Orderly`: what holds of the open frames, and is kept by entering, closing, shifting and recovery.
* `Offers.fate`: what becomes of a token that is offered.
* `feedAll_lossless`: feeding tokens, the end marker last, makes a leaf of each token, block tokens
  left out at most.
* `parse_lossless`: every source is parsed, the leaves of the tree spell its tokens, and the tree's
  text is the source.
-/
namespace Caret

/-- The rule of a statement or a block. -/
def RuleTable.IsBlock (r : RuleTable) : Prop := r.name = "stmt" ∨ r.name = "suite"

instance (r : RuleTable) : Decidable r.IsBlock := inferInstanceAs (Decidable (_ ∨ _))

/-- Sources are read in the first state of the start rule until the end marker comes; simple
statements are entered from the first state of a statement or a block, which no arc leads to. -/
structure Grammar.Layered (g : Grammar) : Prop where
  name : ∀ {start : RuleTable}, g.start? = some start → start.name = "file_input"
  goesOn : ∀ {start : RuleTable}, g.start? = some start → start.accepts 0 = false
  stays : ∀ {start : RuleTable} {a : Arc}, g.start? = some start → a ∈ start.arcs 0 →
    a.target = 0 ∨ g.label? a.label = some (.token .endMarker)
  leaves : ∀ {r : RuleTable} {s : Nat} {a : Arc}, r ∈ g.rules → r.IsBlock → a ∈ r.arcs s →
    a.target ≠ 0
  inBlock : ∀ {r sub : RuleTable} {s : Nat} {a : Arc}, r ∈ g.rules → a ∈ r.arcs s →
    g.Enters a sub → sub.name = "simple_stmt" → r.IsBlock ∧ s = 0

namespace Parser

variable {g : Grammar} {label target : Nat} {t : Token} {p q : Parser} {top lower : Frame}
  {rest below : List Frame} {sub : RuleTable} {tree : Tree}

/-! ## Orderly frames -/

/-- The outermost frame is that of the start rule in its first state. A statement or block in its
first state has no children and is the innermost frame or below a simple statement, and a frame
below a simple statement has no children. -/
inductive Orderly (g : Grammar) : List Frame → Prop
  | source {f : Frame} (h : g.start? = some f.rule) (h' : f.state = 0) : Orderly g [f]
  | inside {top lower : Frame} {below : List Frame}
      (fresh : top.rule.IsBlock → top.state = 0 → top.children = [])
      (left : lower.rule.IsBlock → lower.state ≠ 0)
      (alone : top.rule.name = "simple_stmt" → lower.children = [])
      (h : Orderly g (lower :: below)) : Orderly g (top :: lower :: below)

theorem not_isBlock (lay : g.Layered) (h : g.start? = some sub) : ¬ sub.IsBlock := by
  rintro (name | name) <;> (rw [lay.name h] at name; exact absurd name (by decide))

theorem Orderly.ne_nil {stack : List Frame} (h : Orderly g stack) : stack ≠ [] := by
  cases h <;> exact List.cons_ne_nil _ _

theorem Orderly.fresh (lay : g.Layered) (h : Orderly g (top :: rest)) (block : top.rule.IsBlock)
    (first : top.state = 0) : top.children = [] := by
  cases h with
  | source h => exact absurd block (not_isBlock lay h)
  | inside fresh => exact fresh block first

/-- A frame that has left its first state, if that matters, may get more children. -/
theorem Orderly.add (h : Orderly g (top :: rest)) (left : top.rule.IsBlock → top.state ≠ 0) :
    Orderly g (top.add tree :: rest) := by
  cases h with
  | source h h' => exact .source h h'
  | inside _ left' alone h =>
    exact .inside (fun block first => absurd first (left block)) left' alone h

theorem Orderly.outer (h : Orderly g (top :: lower :: rest)) :
    Orderly g (lower :: rest) ∧ (lower.rule.IsBlock → lower.state ≠ 0) := by
  cases h with
  | inside _ left _ h => exact ⟨h, left⟩

theorem Orderly.drop {above : List Frame} (h : Orderly g (above ++ top :: rest)) :
    Orderly g (top :: rest) := by
  induction above with
  | nil => exact h
  | cons f above ih =>
    cases above with
    | nil => exact h.outer.1
    | cons f' above => exact ih h.outer.1

theorem Orderly.move (h : Orderly g (top :: rest)) (left : top.rule.IsBlock → target ≠ 0)
    (outermost : rest = [] → target = 0) : Orderly g ({ top with state := target } :: rest) := by
  cases h with
  | source h => exact .source h (outermost rfl)
  | inside _ left' alone h =>
    exact .inside (fun block first => absurd first (left block)) left' alone h

/-- The outermost frame does not end. -/
theorem Orderly.accepts_inner (lay : g.Layered) (h : Orderly g (top :: rest))
    (accepts : top.rule.accepts top.state = true) : ∃ lower below, rest = lower :: below := by
  cases h with
  | source h h' =>
    rw [h', lay.goesOn h] at accepts
    cases accepts
  | inside => exact ⟨_, _, rfl⟩

/-- Closing a rule that may end keeps the order. -/
theorem Orderly.pop (lay : g.Layered) (h : Orderly g p.stack) (hs : p.stack = top :: rest)
    (accepts : top.rule.accepts top.state = true) : Orderly g p.pop.stack := by
  rw [hs] at h
  obtain ⟨lower, below, rfl⟩ := h.accepts_inner lay accepts
  rw [(pop_inner hs).1]
  exact h.outer.1.add h.outer.2

theorem Orderly.popCompleted {n : Nat} (lay : g.Layered) (h : Orderly g p.stack) :
    Orderly g (popCompleted n p).stack :=
  popCompleted_keeps (P := fun q => Orderly g q.stack)
    (fun hs only h => h.pop lay hs (accepts_of_acceptsOnly only)) h

/-- Entering a rule keeps the order. -/
theorem Orderly.push (lay : g.Layered) (known : Known g p) (h : Orderly g p.stack)
    (hs : p.stack = top :: rest) {a : Arc} (ha : a ∈ top.arcs) (hsub : g.Enters a sub) :
    Orderly g (p.push sub a.target).stack := by
  rw [push_stack hs]
  rw [hs] at h
  have hr := known.innermost hs
  have moved : Orderly g ({ top with state := a.target } :: rest) := by
    refine h.move (fun block => lay.leaves hr block ha) fun outermost => ?_
    subst outermost
    cases h with
    | source h h' =>
      rw [Frame.arcs, h'] at ha
      rcases lay.stays h ha with stays | ends
      · exact stays
      · obtain ⟨j, hj, -⟩ := hsub
        rw [ends] at hj
        cases hj
  refine .inside (fun _ _ => rfl) (fun block => lay.leaves hr block ha) (fun simple => ?_) moved
  obtain ⟨block, first⟩ := lay.inBlock hr ha hsub simple
  have empty : top.children = [] := h.fresh lay block first
  exact empty

/-! ## One token -/

/-- A token that is not shifted is stuck, and the order is kept. -/
theorem Runs.orderly_stuck {r : Outcome × Parser} (ok : g.Consistent) (lay : g.Layered)
    (h : Runs g label t p r) (orderly : Orderly g p.stack)
    (not : ∀ done, r.1 ≠ .shifted done) : r.1 = .stuck ∧ Orderly g r.2.stack := by
  induction h with
  | complete h => exact absurd h orderly.ne_nil
  | shift => exact absurd rfl (not _)
  | enter h hm next =>
    obtain ⟨a, -, enters, hf, -⟩ := move?_enter hm
    obtain ⟨done, shifted⟩ := Runs.shifts ok next (push_stack h) rfl enters.mem hf
    exact absurd shifted (not done)
  | last h _ accepts =>
    rw [h] at orderly
    obtain ⟨lower, below, impossible⟩ := orderly.accepts_inner lay accepts
    cases impossible
  | close h _ _ accepts _ ih => exact ih (orderly.pop lay h accepts) not
  | stuck => exact ⟨rfl, orderly⟩

/-- A shift of any token but the end marker keeps the order. -/
theorem Runs.orderly_shifted {r : Outcome × Parser} (lay : g.Layered) (h : Runs g label t p r)
    (known : Known g p) (orderly : Orderly g p.stack)
    (inner : g.label? label ≠ some (.token .endMarker)) {done : Bool} (hr : r.1 = .shifted done) :
    Orderly g r.2.stack := by
  induction h with
  | shift h hm =>
    obtain ⟨a, ha, hlabel, rfl⟩ := move?_shift hm
    refine Orderly.popCompleted lay ?_
    rw [(addLeaf_open (moveTo_stack h)).2]
    have hr := known.innermost h
    rw [h] at orderly
    refine Orderly.add (orderly.move (fun block => lay.leaves hr block ha) fun outermost => ?_)
      fun block => lay.leaves hr block ha
    subst outermost
    cases orderly with
    | source hs h' =>
      rw [Frame.arcs, h'] at ha
      rcases lay.stays hs ha with stays | ends
      · exact stays
      · rw [hlabel] at ends
        exact absurd ends inner
  | enter h hm _ ih =>
    obtain ⟨a, ha, enters, -, rfl⟩ := move?_enter hm
    exact ih (known.push h enters.mem) (orderly.push lay known h ha enters) hr
  | close h _ _ accepts _ ih => exact ih known.pop (orderly.pop lay h accepts) hr
  | complete => cases hr
  | last => cases hr
  | stuck => cases hr

/-- What recovery comes back to is in order and may get more children. -/
theorem Orderly.fold (lay : g.Layered) {c : Cut} (h : Orderly g p.stack)
    (hc : cut? [] p.stack = some c) :
    Orderly g (c.fold.container :: c.fold.below) ∧
      (c.fold.container.rule.IsBlock → c.fold.container.state ≠ 0) := by
  have whole : p.stack = c.above ++ c.container :: c.below := (cut?_stack hc).symm
  rw [whole] at h
  have orderly := h.drop
  have folds := c.foldsTo_fold
  generalize c.fold = d at folds ⊢
  cases folds with
  | same =>
    refine ⟨orderly, fun block first => ?_⟩
    have empty := orderly.fresh lay block first
    rcases cut?_container hc with source | hb
    · rw [empty] at source
      rcases block with name | name <;> (rw [name] at source; revert source; decide)
    · rw [hb] at orderly
      cases orderly with
      | source hs => exact not_isBlock lay hs block
  | own simple hb =>
    rw [hb] at orderly
    cases orderly with
    | source hs => rw [lay.name hs] at simple; exact absurd simple (by decide)
  | outer _ hb =>
    rw [hb] at orderly
    exact ⟨orderly.outer.1.add orderly.outer.2, orderly.outer.2⟩
  | further _ hb =>
    rw [hb] at orderly
    have lower := orderly.outer.1.outer
    exact ⟨lower.1.add lower.2, lower.2⟩

theorem Orderly.alone {c : Cut} (h : Orderly g p.stack) (hc : cut? [] p.stack = some c) :
    c.Alone := by
  intro inner outer below name hb
  have whole : p.stack = c.above ++ c.container :: c.below := (cut?_stack hc).symm
  rw [whole, hb] at h
  have orderly := h.drop
  cases orderly with
  | inside _ _ alone => exact alone name

/-- Recovery keeps the order. -/
theorem Orderly.recover (lay : g.Layered) {again : Bool} {c : Cut} (h : Orderly g p.stack)
    (hc : cut? [] p.stack = some c) (recovers : RecoversTo t p c again q) : Orderly g q.stack := by
  obtain ⟨orderly, left⟩ := h.fold lay hc
  cases recovers with
  | dropped => exact orderly
  | misplaced => exact orderly.add left
  | removed => exact orderly.add left

/-- The leaves that a token makes: one with its value, trivia and start, or none for a block
token. -/
def Makes (t : Token) (ls : List Leaf) : Prop :=
  (∃ l, ls = [l] ∧ l.value = t.value ∧ l.trivia = t.trivia ∧ l.start = t.start) ∨
    (ls = [] ∧ (t.kind = .indent ∨ t.kind = .dedent))

theorem classify_kind (h : classify g t = some label) (hk : t.kind ≠ .endMarker) :
    g.label? label ≠ some (.token .endMarker) := by
  rcases classify_label h with ⟨k, hl⟩ | hl <;> rw [hl]
  · simp
  · simpa using hk

/-- A state that tokens can be fed to: open frames of rules of the grammar, in order. -/
structure Ready (g : Grammar) (p : Parser) : Prop where
  known : Known g p
  orderly : Orderly g p.stack
  whole : Whole p

theorem ready_new (ok : g.Consistent) : Ready g (new g) ∧ (new g).leaves = [] := by
  obtain ⟨start, hs⟩ := ok.start
  obtain ⟨whole, empty⟩ := leaves_of_open (p := new g) rfl (new_stack hs)
  have orderly : Orderly g (new g).stack := by
    rw [new_stack hs]
    exact .source hs rfl
  exact ⟨⟨known_new g, orderly, whole⟩, empty⟩

/-- What a stuck token leaves behind. -/
theorem Ready.stuck (ok : g.Consistent) (lay : g.Layered) (h : Ready g p)
    (hs : shift g t p = (.stuck, q)) :
    Ready g q ∧ q.leaves = p.leaves ∧ q.blocks = p.blocks := by
  rcases shift_cases ok h.known hs with ⟨-, -, rfl⟩ | ⟨label, -, runs⟩
  · exact ⟨h, rfl, rfl⟩
  · obtain ⟨whole, -, same⟩ := runs.leaves_eq h.whole
    have orderly := (runs.orderly_stuck ok lay h.orderly (by simp)).2
    exact ⟨⟨h.known.shift ok hs, orderly, whole⟩, same (by simp), runs.blocks_eq⟩

/-- What recovery makes of a stuck token. -/
theorem Ready.recover {again : Bool} (lay : g.Layered) (h : Ready g p)
    (hr : recover t p = (again, q)) :
    Ready g q ∧ (again = true ∧ q.leaves = p.leaves ∧ q.blocks = p.blocks ∨
      again = false ∧ t.kind = .indent ∧ q.leaves = p.leaves ∧
        q.blocks = (p.depth :: p.omitted, p.depth) ∨
      again = false ∧ t.kind ≠ .indent ∧ q.leaves = p.leaves ++ [errorLeaf t] ∧
        q.blocks = p.blocks) := by
  obtain ⟨top, rest, hs⟩ := List.exists_cons_of_ne_nil h.orderly.ne_nil
  obtain ⟨c, hc, recovers⟩ := recover_cases h.orderly.ne_nil hr
  obtain ⟨whole, cases⟩ := leaves_recover h.whole hs hc (h.orderly.alone hc) recovers
  exact ⟨⟨h.known.recover hr, h.orderly.recover lay hc recovers, whole⟩, cases⟩

/-- What becomes of a token that is offered. As long as it is stuck and recovery takes frames off,
the leaves stay, and so does what is remembered of blocks and what else recovery keeps. In the end
the token is shifted, or it is stuck and absorbed: an opening token is dropped and remembered, any
other becomes an error leaf. -/
theorem Offers.fate {P : Parser → Prop} {r : Except ParseError Bool × Parser} (ok : g.Consistent)
    (lay : g.Layered) (h : Offers g t p r) (ready : Ready g p)
    (stuck : ∀ {p q : Parser}, P p → shift g t p = (.stuck, q) → P q)
    (recovered : ∀ {p q : Parser} {again : Bool}, P p → recover t p = (again, q) → P q)
    (hp : P p) :
    (∃ q label done, Ready g q ∧ P q ∧ q.leaves = p.leaves ∧ q.blocks = p.blocks ∧
        classify g t = some label ∧ Runs g label t q (.shifted done, r.2) ∧ r.1 = .ok done) ∨
      (r.1 = .ok false ∧ Ready g r.2 ∧ P r.2 ∧
        (t.kind = .indent ∧ r.2.leaves = p.leaves ∧
            r.2.blocks = (p.depth :: p.omitted, p.depth) ∨
          t.kind ≠ .indent ∧ r.2.leaves = p.leaves ++ [errorLeaf t] ∧ r.2.blocks = p.blocks)) := by
  induction h with
  | complete h => exact absurd h ready.orderly.ne_nil
  | shifted _ h =>
    obtain ⟨label, hl, runs⟩ := shift_runs ok ready.known h (by simp)
    exact .inl ⟨_, label, _, ready, hp, rfl, rfl, hl, runs, rfl⟩
  | ended _ h =>
    obtain ⟨label, hl, runs⟩ := shift_runs ok ready.known h (by simp)
    have := (runs.orderly_stuck ok lay ready.orderly (by simp)).1
    cases this
  | again _ h h' _ ih =>
    obtain ⟨ready₁, leaves₁, blocks₁⟩ := ready.stuck ok lay h
    obtain ⟨ready₂, ⟨-, leaves₂, blocks₂⟩ | ⟨impossible, -⟩ | ⟨impossible, -⟩⟩ :=
      ready₁.recover lay h'
    · have blocks := blocks₂.trans blocks₁
      obtain ⟨omitted, depth⟩ := Prod.mk.inj blocks
      rw [← leaves₁, ← leaves₂, ← blocks, ← omitted, ← depth]
      exact ih ready₂ (recovered (stuck hp h) h')
    · cases impossible
    · cases impossible
  | absorbed _ h h' =>
    obtain ⟨ready₁, leaves₁, blocks₁⟩ := ready.stuck ok lay h
    obtain ⟨omitted, depth⟩ := Prod.mk.inj blocks₁
    obtain ⟨ready₂, ⟨impossible, -⟩ | ⟨-, dropped⟩ | ⟨-, made⟩⟩ := ready₁.recover lay h'
    · cases impossible
    · rw [leaves₁, omitted, depth] at dropped
      exact .inr ⟨rfl, ready₂, recovered (stuck hp h) h', .inl dropped⟩
    · rw [leaves₁, blocks₁] at made
      exact .inr ⟨rfl, ready₂, recovered (stuck hp h) h', .inr made⟩

/-- A token is never refused. Any but the end marker leaves the order as it is. -/
theorem Offers.lossless {r : Except ParseError Bool × Parser} (ok : g.Consistent)
    (lay : g.Layered) (h : Offers g t p r) (ready : Ready g p) :
    (∃ done, r.1 = .ok done) ∧ (t.kind ≠ .endMarker → r.1 = .ok false ∧ Orderly g r.2.stack) ∧
      Whole r.2 ∧ ∃ ls, r.2.leaves = p.leaves ++ ls ∧ Makes t ls := by
  rcases h.fate (P := fun _ => True) ok lay ready (fun _ _ => trivial) (fun _ _ => trivial) trivial
    with ⟨q, label, done, ready', -, same, -, hl, runs, answer⟩ | ⟨answer, ready', -, fate⟩
  · obtain ⟨whole, leaves, -⟩ := runs.leaves_eq ready'.whole
    refine ⟨⟨_, answer⟩, fun hk => ?_, whole, _, by rw [leaves ⟨_, rfl⟩, same],
      .inl ⟨_, rfl, rfl, rfl, rfl⟩⟩
    have after := runs.orderly_shifted lay ready'.known ready'.orderly (classify_kind hl hk) rfl
    have unfinished := mt isDone_iff.1 after.ne_nil
    rw [← runs.done_eq rfl, Bool.not_eq_true] at unfinished
    exact ⟨answer.trans (congrArg Except.ok unfinished), after⟩
  · refine ⟨⟨_, answer⟩, fun _ => ⟨answer, ready'.orderly⟩, ready'.whole, ?_⟩
    rcases fate with ⟨kind, same, -⟩ | ⟨-, added, -⟩
    · exact ⟨[], by rw [same, List.append_nil], .inr ⟨rfl, .inl kind⟩⟩
    · exact ⟨_, added, .inl ⟨_, rfl, rfl, rfl, rfl⟩⟩

@[simp] theorem leaves_count (kind : TokenKind) : (p.count kind).leaves = p.leaves := by
  rw [count_eq]
  rfl

theorem Whole.count (h : Whole p) (kind : TokenKind) : Whole (p.count kind) := by
  rw [count_eq]
  exact h

theorem Ready.count (h : Ready g p) (kind : TokenKind) : Ready g (p.count kind) :=
  ⟨h.known.count, by rw [stack_count]; exact h.orderly, h.whole.count kind⟩

/-- Feeding a token never refuses it, and makes its leaf, or none for a block token. -/
theorem feed_lossless (ok : g.Consistent) (lay : g.Layered) (h : Ready g p) :
    (∃ done, (feed g t p).1 = .ok done) ∧
      (t.kind ≠ .endMarker → (feed g t p).1 = .ok false ∧ Ready g (feed g t p).2) ∧
      Whole (feed g t p).2 ∧ ∃ ls, (feed g t p).2.leaves = p.leaves ++ ls ∧ Makes t ls := by
  rcases feed_cases ok h.known (t := t) with ⟨closes, hf⟩ | ⟨-, offers⟩
  · have kind : t.kind = .dedent := by
      rw [closesOmitted, Bool.and_eq_true, beq_iff_eq] at closes
      exact closes.1
    rw [hf]
    exact ⟨⟨_, rfl⟩, fun _ => ⟨rfl, h.known, h.orderly, h.whole⟩, h.whole, [],
      by rw [List.append_nil]; rfl, .inr ⟨rfl, .inr kind⟩⟩
  · obtain ⟨answers, goesOn, whole, ls, leaves, makes⟩ := offers.lossless ok lay (h.count _)
    rw [leaves_count] at leaves
    exact ⟨answers, fun kind => ⟨(goesOn kind).1, h.known.feed ok, (goesOn kind).2, whole⟩, whole,
      ls, leaves, makes⟩

end Parser

/-! ## Sources -/

/-- The leaves are those of the tokens, with the same values, trivia and starts and in the same
order, except that block tokens without text may be left out. -/
inductive Spells : List Token → List Leaf → Prop
  | nil : Spells [] []
  | keep {t : Token} {l : Leaf} {ts : List Token} {ls : List Leaf} (value : l.value = t.value)
      (trivia : l.trivia = t.trivia) (start : l.start = t.start) (h : Spells ts ls) :
      Spells (t :: ts) (l :: ls)
  | drop {t : Token} {ts : List Token} {ls : List Leaf} (kind : t.kind = .indent ∨ t.kind = .dedent)
      (value : t.value = []) (trivia : t.trivia = []) (h : Spells ts ls) : Spells (t :: ts) ls

/-- The leaves have the text of the tokens. -/
theorem Spells.text {ts : List Token} {ls : List Leaf} (h : Spells ts ls) :
    (ls.flatMap fun l => l.trivia ++ l.value) = Token.concat ts := by
  induction h with
  | nil => rfl
  | keep value trivia _ _ ih =>
    rw [List.flatMap_cons, ih, value, trivia]
    rfl
  | drop _ value trivia _ ih =>
    rw [ih]
    simp [Token.concat, value, trivia]

namespace Parser

variable {g : Grammar} {p : Parser}

theorem feedAll_cons {t : Token} {ts : List Token} {q : Parser} (h : feed g t p = (.ok false, q)) :
    feedAll g (t :: ts) p = feedAll g ts q := by
  rw [feedAll, h]

theorem feedAll_last {t : Token} {q : Parser} {done : Bool} (h : feed g t p = (.ok done, q)) :
    feedAll g [t] p = .ok q := by
  rw [feedAll, h]
  cases done <;> rfl

/-- Feeding tokens, the end marker last, refuses none of them, and the leaves spell them. -/
theorem feedAll_lossless (ok : g.Consistent) (lay : g.Layered) {body : List Token} {last : Token}
    (layout : ∀ t ∈ body ++ [last], t.kind = .indent ∨ t.kind = .dedent → t.IsLayout)
    (inner : ∀ t ∈ body, t.kind ≠ .endMarker) (ready : Ready g p) :
    ∃ q ls, feedAll g (body ++ [last]) p = .ok q ∧ Whole q ∧ q.leaves = p.leaves ++ ls ∧
      Spells (body ++ [last]) ls := by
  -- what a token makes stands in front of what spells the others
  have spell {t : Token} {ts : List Token} {ls ls' : List Leaf}
      (ht : t.kind = .indent ∨ t.kind = .dedent → t.IsLayout) (makes : Makes t ls)
      (h : Spells ts ls') : Spells (t :: ts) (ls ++ ls') := by
    rcases makes with ⟨l, rfl, value, trivia, start⟩ | ⟨rfl, kind⟩
    · exact .keep value trivia start h
    · exact .drop kind (ht kind).value (ht kind).trivia h
  induction body generalizing p with
  | nil =>
    obtain ⟨⟨done, hdone⟩, -, whole', ls, added, makes⟩ := feed_lossless (t := last) ok lay ready
    refine ⟨(feed g last p).2, ls ++ [], feedAll_last (Prod.ext hdone rfl), whole',
      by rw [added, List.append_nil], spell (layout last (by simp)) makes .nil⟩
  | cons t body ih =>
    obtain ⟨-, goesOn, -, ls, added, makes⟩ := feed_lossless (t := t) ok lay ready
    obtain ⟨unfinished, ready'⟩ := goesOn (inner t List.mem_cons_self)
    obtain ⟨q, ls', fed, wholeq, more, spells⟩ :=
      ih (fun u hu => layout u (List.mem_cons_of_mem _ hu))
        (fun u hu => inner u (List.mem_cons_of_mem _ hu)) ready'
    refine ⟨q, ls ++ ls', ?_, wholeq, by rw [more, added, List.append_assoc],
      spell (layout t List.mem_cons_self) makes spells⟩
    rw [List.cons_append, feedAll_cons (Prod.ext unfinished rfl), fed]

end Parser

namespace Module

variable {g : Grammar}

/-- Completing a source can be taken back. -/
theorem dropLast_completed (source : Text) :
    (if endsLine source then completed source else (completed source).dropLast) = source := by
  unfold completed
  split
  · rfl
  · rw [List.dropLast_concat]

/-- With such tables a source is parsed, and nothing of it is lost. -/
theorem parse_of_layered (ok : g.Consistent) (lay : g.Layered) (source : Text) :
    ∃ m, parse g source = .ok m ∧ Spells (tokenize (completed source)) m.root.leaves ∧
      m.code = source := by
  obtain ⟨body, last, tokens, -, inner⟩ := tokenize_eq (completed source)
  have layout : ∀ t ∈ body ++ [last], t.kind = .indent ∨ t.kind = .dedent → t.IsLayout := by
    intro t ht
    rw [← tokens] at ht
    exact tokenize_layout ht
  obtain ⟨ready, empty⟩ := Parser.ready_new ok
  obtain ⟨q, ls, fed, wholeq, leaves, spells⟩ := Parser.feedAll_lossless ok lay layout inner ready
  have all : (q.finish g).root.leaves = ls := by
    rw [Parser.leaves_finish wholeq, leaves, empty, List.nil_append]
  rw [← tokens] at fed spells
  refine ⟨{ q.finish g with addedNewline := !endsLine source }, ?_, ?_, ?_⟩
  · rw [parse, fed]
    rfl
  · exact all ▸ spells
  · have text : (q.finish g).root.code = completed source := by
      rw [Tree.code, all, spells.text, concat_tokenize]
    have back := dropLast_completed source
    unfold code
    dsimp only
    rw [text]
    cases hl : endsLine source <;> rw [hl] at back <;> exact back

end Module

namespace Grammar

theorem python_layered : pythonTables.Layered := by
  have start : pythonTables.start?.all (fun start => start.name == "file_input" &&
      !start.accepts 0 && (start.arcs 0).all fun a =>
        a.target == 0 || pythonTables.label? a.label == some (.token .endMarker)) = true := by
    decide +kernel
  have blocks : ∀ r ∈ pythonTables.rules.toList, r.IsBlock → ∀ arcs ∈ r.states.toList,
      ∀ a ∈ arcs, a.target ≠ 0 := by
    decide +kernel
  have statements : ∀ r ∈ pythonTables.rules.toList, ∀ s < r.states.size, ∀ a ∈ r.arcs s,
      (pythonTables.entered? a).any (·.name == "simple_stmt") = true → r.IsBlock ∧ s = 0 := by
    decide +kernel
  have first {r : RuleTable} (h : pythonTables.start? = some r) :
      r.name = "file_input" ∧ r.accepts 0 = false ∧ ∀ a ∈ r.arcs 0,
        a.target = 0 ∨ pythonTables.label? a.label = some (.token .endMarker) := by
    rw [h, Option.all_some, Bool.and_eq_true, Bool.and_eq_true, List.all_eq_true] at start
    obtain ⟨⟨name, goesOn⟩, arcs⟩ := start
    exact ⟨by simpa using name, by simpa using goesOn, fun a ha => by simpa using arcs a ha⟩
  refine ⟨fun h => (first h).1, fun h => (first h).2.1, fun h ha => (first h).2.2 _ ha, ?_, ?_⟩
  · intro r s a hr block ha
    exact blocks r (Array.mem_toList_iff.2 hr) block _ (arcs_mem_states ha) a ha
  · intro r sub s a hr ha hsub name
    refine statements r (Array.mem_toList_iff.2 hr) s (lt_size_of_mem_arcs ha) a ha ?_
    rw [entered?_eq.2 hsub, Option.any_some, name]
    rfl

end Grammar

namespace Module

/-- Every source is parsed with the Python grammar, however broken it is. The leaves of the tree
are the tokens of the source in their order, but for block tokens, and the text of the tree is the
source. -/
theorem parse_lossless :
    ∃ g, Grammar.python = .ok g ∧ ∀ source, ∃ m, parse g source = .ok m ∧
      Spells (tokenize (completed source)) m.root.leaves ∧ m.code = source :=
  ⟨_, Grammar.python_eq, parse_of_layered Grammar.python_consistent Grammar.python_layered⟩

end Module

end Caret

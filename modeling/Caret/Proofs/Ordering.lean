import Caret.Proofs.Lossless
/-!
# Where tokens and leaves stand

A token starts behind the text of all tokens before it and its own trivia. Block tokens have no
text; they stand somewhere in the trivia of the token behind them. So tokens stand in the order in
which they come, and so do the leaves of a parsed source.

Results:
* `Placed`: the tokens stand where they are written, from some position on.
* `tokenize_placed`: the tokens of a source do.
* `Placed.start_eq`: a token starts behind the text before it.
* `tokenize_positions`: the places of the tokens of a source are exact and in order.
* `Placed.ordered`, `Module.leaves_ordered`: every token and every leaf ends before the next starts.
-/
namespace Caret

/-- Written one after the other from this position on, the tokens stand where they say; block tokens
stand between the token before and the token behind them. -/
inductive Placed : Position → List Token → Prop
  | nil (pos : Position) : Placed pos []
  | lexeme {pos : Position} {t : Token} {ts : List Token}
      (start : t.start = pos.advancedBy t.trivia) (rest : Placed t.stop ts) : Placed pos (t :: ts)
  | layout {pos : Position} {t : Token} {ts : List Token} (block : t.IsLayout)
      (after : pos ≤ t.start) (before : ∀ u ∈ ts.head?, t.start ≤ u.start)
      (rest : Placed pos ts) : Placed pos (t :: ts)

variable {pos : Position} {t u : Token} {ts us : List Token}

theorem Position.lt_advancedBy (p : Position) {text : Text} (h : text ≠ []) :
    p < p.advancedBy text := by
  obtain ⟨c, rest, rfl⟩ := List.exists_cons_of_ne_nil h
  have step := lt_advance p c
  have more := le_advancedBy (p.advance c) rest
  show p < (p.advance c).advancedBy rest
  simp only [lt_def, le_def] at *
  omega

/-- Of two beginnings of a text the one that ends no later is one of the other. -/
theorem Position.prefix_of_le {p : Position} {front front' text : Text} (h : front <+: text)
    (h' : front' <+: text) (le : p.advancedBy front ≤ p.advancedBy front') : front <+: front' := by
  rcases List.prefix_or_prefix_of_prefix h h' with short | ⟨more, rfl⟩
  · exact short
  · rw [advancedBy_append] at le
    by_cases none : more = []
    · simp [none]
    · exact absurd le (not_le.2 (lt_advancedBy _ none))

theorem Token.start_le_stop (t : Token) : t.start ≤ t.stop := Position.le_advancedBy _ _

theorem Token.IsLayout.stop (h : t.IsLayout) : t.stop = t.start := by
  rw [Token.stop, h.value, Position.advancedBy_nil]

namespace Placed

/-- A token starts no earlier than the position. -/
theorem le_head (h : Placed pos (t :: ts)) : pos ≤ t.start := by
  cases h with
  | lexeme start => exact start ▸ Position.le_advancedBy _ _
  | layout _ after => exact after

/-- The next token starts no earlier than a token ends. -/
theorem stop_le_head (h : Placed pos (t :: u :: us)) : t.stop ≤ u.start := by
  cases h with
  | lexeme _ rest => exact rest.le_head
  | layout block _ before =>
    rw [block.stop]
    exact before u rfl

theorem tail (h : Placed pos (t :: ts)) : ∃ pos', Placed pos' ts := by
  cases h with
  | lexeme _ rest => exact ⟨_, rest⟩
  | layout _ _ _ rest => exact ⟨_, rest⟩

/-- No later token starts before a token ends. -/
theorem stop_le (h : Placed pos (t :: ts)) : ∀ u ∈ ts, t.stop ≤ u.start := by
  induction ts generalizing pos t with
  | nil => simp
  | cons v ts ih =>
    intro u hu
    have next := h.stop_le_head
    rcases List.mem_cons.1 hu with rfl | hu
    · exact next
    · obtain ⟨pos', rest⟩ := h.tail
      have later := ih rest u hu
      exact Position.le_trans next (Position.le_trans v.start_le_stop later)

theorem ordered (h : Placed pos ts) : ts.Pairwise fun t u => t.stop ≤ u.start := by
  induction ts generalizing pos with
  | nil => exact .nil
  | cons t ts ih =>
    obtain ⟨pos', rest⟩ := h.tail
    exact .cons h.stop_le (ih rest)

/-- A token that is no block token starts behind the text before it and its trivia. -/
theorem start_eq (h : Placed pos (ts ++ t :: us)) (lexeme : ¬ t.IsLayout) :
    t.start = pos.advancedBy (Token.concat ts ++ t.trivia) := by
  induction ts generalizing pos with
  | nil =>
    cases h with
    | lexeme start => exact start
    | layout block => exact absurd block lexeme
  | cons v ts ih =>
    cases h with
    | lexeme start rest =>
      rw [ih rest, Token.concat_cons, Token.stop, start]
      simp
    | layout block _ _ rest =>
      rw [ih rest, Token.concat_cons, block.trivia, block.value]
      simp

end Placed

/-- Block tokens in front of a token, each between the position and the token. -/
theorem placed_append {layout : List Token} (start : t.start = pos.advancedBy t.trivia)
    (rest : Placed t.stop ts) (blocks : ∀ u ∈ layout, u.IsLayout ∧ pos ≤ u.start)
    (sorted : (layout ++ [t]).Pairwise fun u v => u.start ≤ v.start) :
    Placed pos (layout ++ t :: ts) := by
  induction layout with
  | nil => exact .lexeme start rest
  | cons u layout ih =>
    obtain ⟨block, after⟩ := blocks u List.mem_cons_self
    obtain ⟨first, sorted'⟩ := List.pairwise_cons.1 sorted
    refine .layout block after (fun v hv => first v ?_)
      (ih (fun v hv => blocks v (List.mem_cons_of_mem _ hv)) sorted')
    cases layout with
    | nil =>
      cases hv
      exact List.mem_cons_self
    | cons w layout =>
      cases hv
      exact List.mem_cons_self

namespace Scanner

/-- Tokens at one position, and behind them tokens at a later one. -/
theorem pairwise_start {at_ behind : Position} {blocks more : List Token} (le : at_ ≤ behind)
    (first : ∀ t ∈ blocks, t.start = at_) (later : ∀ t ∈ more, t.start = behind) :
    (blocks ++ more).Pairwise fun u v => u.start ≤ v.start := by
  refine List.pairwise_append.2 ⟨?_, ?_, fun u hu v hv => ?_⟩
  · refine List.pairwise_of_forall_mem_list fun u hu v hv => ?_
    rw [first u hu, first v hv]
    exact Position.le_refl _
  · refine List.pairwise_of_forall_mem_list fun u hu v hv => ?_
    rw [later u hu, later v hv]
    exact Position.le_refl _
  · rw [first u hu, later v hv]
    exact le

/-- Where the tokens of a round stand: block tokens in order, and a token behind its trivia. The
scanner then is behind that token. -/
theorem round_places (s : Scanner) : ∃ blocks t, s.round.tokens = blocks ++ [t] ∧
    t.start = s.position.advancedBy t.trivia ∧ s.round.next.position = t.stop ∧
    (∀ u ∈ blocks, u.IsLayout ∧ s.position ≤ u.start) ∧
    (blocks ++ [t]).Pairwise fun u v => u.start ≤ v.start := by
  obtain ⟨skipped, front, blocks⟩ := s.approach_isLayout
  have before : s.position.advancedBy skipped ≤ s.approach.start := by
    obtain ⟨more, trivia⟩ := front
    rw [s.approach_start, ← trivia, Position.advancedBy_append]
    exact Position.le_advancedBy _ _
  -- block tokens that stand at the line start, behind them some at the token's start
  have sorted {more : List Token} (hmore : ∀ u ∈ more, u.start = s.approach.start) :
      (s.approach.blocks ++ more).Pairwise fun u v => u.start ≤ v.start :=
    pairwise_start before (fun t ht => (blocks t ht).2) hmore
  cases hrest : s.approach.rest with
  | nil =>
    refine ⟨s.approach.blocks ++ List.replicate (s.approach.margins.length - 1)
      (layoutToken .dedent s.approach.start),
      ⟨.endMarker, [], s.approach.trivia, s.approach.start⟩, ?_⟩
    rw [round_last hrest]
    refine ⟨rfl, s.approach_start, rfl, fun u hu => approach_closing hu, ?_⟩
    rw [List.append_assoc]
    refine sorted fun u hu => ?_
    rcases List.mem_append.1 hu with hu | hu
    · rw [List.eq_of_mem_replicate hu]
      rfl
    · rw [List.mem_singleton.1 hu]
  | cons c rest =>
    refine ⟨s.approach.blocks, ⟨(lexeme c rest).kind, (c :: rest).take (lexeme c rest).length,
      s.approach.trivia, s.approach.start⟩, ?_⟩
    rw [round_lexeme hrest]
    refine ⟨rfl, s.approach_start, rfl, fun u hu => ?_, ?_⟩
    · rw [(blocks u hu).2]
      exact ⟨(blocks u hu).1, Position.le_advancedBy _ _⟩
    · refine sorted fun u hu => ?_
      rw [List.mem_singleton.1 hu]

theorem tokens_placed (n : Nat) (s : Scanner) : Placed s.position (s.tokens n) := by
  induction n generalizing s with
  | zero => exact .nil _
  | succ n ih =>
    obtain ⟨blocks, t, tokens, start, next, hb, sorted⟩ := s.round_places
    rw [Scanner.tokens]
    split
    · rw [tokens]
      exact placed_append start (.nil _) hb sorted
    · have rest := ih s.round.next
      rw [next] at rest
      rw [tokens, List.append_assoc]
      exact placed_append start rest hb sorted

end Scanner

/-- The tokens of a source stand where they say. -/
theorem tokenize_placed (text : Text) : Placed .start (tokenize text) :=
  Scanner.tokens_placed _ (Scanner.ofText text)

/-- A token that is no block token starts where the text of all tokens before it and its own trivia
lead from the start of the source. Of two tokens in a row, block tokens or not, the first ends
before the second starts. -/
theorem tokenize_positions (text : Text) :
    (∀ before t after, tokenize text = before ++ t :: after → t.kind ≠ .indent →
      t.kind ≠ .dedent →
      t.start = Position.start.advancedBy (Token.concat before ++ t.trivia)) ∧
    ∀ before t u after, tokenize text = before ++ t :: u :: after → t.stop ≤ u.start := by
  have placed := tokenize_placed text
  constructor
  · intro before t after split noIndent noDedent
    rw [split] at placed
    exact placed.start_eq fun block => block.kind.elim noIndent noDedent
  · intro before t u after split
    have ordered := placed.ordered
    rw [split] at ordered
    have behind := (List.pairwise_append.1 ordered).2.1
    exact (List.pairwise_cons.1 behind).1 u List.mem_cons_self

/-- Behind a comment and a line break of two characters a tab opens a block, and a string over two
lines is in it. -/
theorem tokenize_positions_margin :
    ∃ before t u after, tokenize "x # 1\r\n\t'''2\n'''".toList = before ++ t :: u :: after ∧
      t.kind = .indent ∧ u.kind = .string ∧ t.stop ≤ u.start ∧
      u.start = Position.start.advancedBy (Token.concat (before ++ [t]) ++ u.trivia) := by
  obtain ⟨starts, ordered⟩ := tokenize_positions "x # 1\r\n\t'''2\n'''".toList
  obtain ⟨before, t, u, after, split, indent, string⟩ :
      ∃ before t u after, tokenize "x # 1\r\n\t'''2\n'''".toList = before ++ t :: u :: after ∧
        t.kind = .indent ∧ u.kind = .string :=
    ⟨[⟨.name, ['x'], [], .start⟩, ⟨.newline, ['\r', '\n'], " # 1".toList, ⟨1, 5⟩⟩],
      ⟨.indent, [], [], ⟨2, 1⟩⟩, ⟨.string, "'''2\n'''".toList, ['\t'], ⟨2, 1⟩⟩,
      [⟨.dedent, [], [], ⟨3, 3⟩⟩, ⟨.endMarker, [], [], ⟨3, 3⟩⟩], by decide +kernel, rfl, rfl⟩
  refine ⟨before, t, u, after, split, indent, string, ordered before t u after split, ?_⟩
  exact starts (before ++ [t]) u after (by rw [split, List.append_assoc]; rfl)
    (by rw [string]; decide) (by rw [string]; decide)

/-! ## Leaves -/

/-- The leaf stands before the other. -/
def Leaf.Before (l m : Leaf) : Prop := l.stop ≤ m.start

theorem Leaf.start_le_stop (l : Leaf) : l.start ≤ l.stop := Position.le_advancedBy _ _

/-- Leaves that spell tokens in order stand in order. -/
theorem Spells.ordered {ls : List Leaf} (h : Spells ts ls)
    (ordered : ts.Pairwise fun t u => t.stop ≤ u.start) :
    ls.Pairwise Leaf.Before ∧ ∀ l ∈ ls, ∃ t ∈ ts, l.start = t.start ∧ l.stop = t.stop := by
  induction h with
  | nil => exact ⟨.nil, by simp⟩
  | @keep t l ts ls value _ start _ ih =>
    obtain ⟨first, ordered'⟩ := List.pairwise_cons.1 ordered
    obtain ⟨more, places⟩ := ih ordered'
    have stop : l.stop = t.stop := by rw [Leaf.stop, Token.stop, start, value]
    refine ⟨.cons (fun m hm => ?_) more, fun m hm => ?_⟩
    · obtain ⟨u, hu, at_, -⟩ := places m hm
      rw [Leaf.Before, stop, at_]
      exact first u hu
    · rcases List.mem_cons.1 hm with rfl | hm
      · exact ⟨t, List.mem_cons_self, start, stop⟩
      · obtain ⟨u, hu, place⟩ := places m hm
        exact ⟨u, List.mem_cons_of_mem _ hu, place⟩
  | drop _ _ _ _ ih =>
    obtain ⟨more, places⟩ := ih ordered.of_cons
    refine ⟨more, fun m hm => ?_⟩
    obtain ⟨u, hu, place⟩ := places m hm
    exact ⟨u, List.mem_cons_of_mem _ hu, place⟩

/-- The leaves of a parsed source stand in order. -/
theorem Module.leaves_ordered {g : Grammar} (ok : g.Consistent) (lay : g.Layered) {source : Text}
    {m : Module} (parsed : parse g source = .ok m) : m.root.leaves.Pairwise Leaf.Before := by
  obtain ⟨m', parsed', spells, -⟩ := parse_of_layered ok lay source
  rw [parsed] at parsed'
  cases parsed'
  exact (spells.ordered (tokenize_placed _).ordered).1

end Caret

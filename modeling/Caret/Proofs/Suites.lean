import Caret.Proofs.BlockFrames
/-!
# Where a block ends

As long as no closing token becomes an error leaf, the frames in blocks and the blocks whose opening
token was dropped are as many as the open blocks of the source, and the closing token of a block
finds the frame of the block in front, unless that frame was closed before. A closing token that
becomes an error leaf leaves a frame open that takes what follows.

Results:
* `Within.feed`, `Within.run`: what the tokens inside a block do.
* `Bounded`: the dropped blocks that are open were opened at different depths.
* `block_left`: the frame of a block is left with its closing token, or before, or a closing token
  has become an error leaf.
* `Module.suite_left`: the same of the sources that the Python grammar parses.
* `Module.suite_kept`: a source with a frame that is not left.
-/
namespace Caret

namespace Parser

variable {g : Grammar} {m n base k k' : Nat} {old : List Nat} {t : Token} {p : Parser}

/-! ## The tokens of a block -/

/-- With the token the stack gets as low as `m` frames, or the token closes a block and becomes an
error leaf. -/
def Leaves (g : Grammar) (m : Nat) (p : Parser) (t : Token) : Prop :=
  (feed g t p).2.stack.length ≤ m ∨
    (t.kind = .dedent ∧ (feed g t p).2.leaves = p.leaves ++ [errorLeaf t])

/-- In a block whose opening token was shifted at depth `base`, with `m` frames below its frame:
since then `k` blocks have been opened and not closed, in frames or by dropped tokens. -/
def Within (m base k : Nat) (old : List Nat) (p : Parser) : Prop :=
  ∃ n inner, Inside m n p.spine ∧ p.omitted = inner ++ old ∧ n + inner.length = k ∧
    base + k ≤ p.depth

/-- A token inside a block, or the one that closes it. -/
theorem Within.feed (ok : g.Consistent) (lay : g.Layered) (blk : g.Blocked) (steady : Steady g p)
    (earlier : ∀ v ∈ old, v < base) (h : Within m base k old p) (t : Token) :
    Leaves g m p t ∨ ∃ k', blockAfter k t.kind = some k' ∧ Within m base k' old (feed g t p).2 := by
  obtain ⟨n, inner, inside, omitted, count, deep⟩ := h
  obtain ⟨opened, closed, other⟩ := feed_blocks ok lay steady.toReady (t := t)
  obtain ⟨opened', closed', other'⟩ := feed_inside ok lay blk steady inside (t := t)
  by_cases opens : t.kind = .indent
  · refine .inr ⟨k + 1, by rw [opens]; rfl, ?_⟩
    rcases opened opens with ⟨dropped, blocks⟩ | ⟨dropped, blocks⟩ <;>
      obtain ⟨homitted, hdepth⟩ := Prod.mk.inj blocks <;>
      rcases opened' opens with ⟨dropped', inside'⟩ | ⟨dropped', inside'⟩ <;>
      rw [dropped] at dropped'
    · exact ⟨n + 1, inner, inside', homitted.trans omitted, by omega, by omega⟩
    · cases dropped'
    · cases dropped'
    · refine ⟨n, _ :: inner, inside', by rw [homitted, omitted]; rfl, ?_, by omega⟩
      rw [List.length_cons]
      omega
  by_cases closes : t.kind = .dedent
  · rcases closed closes with ⟨different, dropped, blocks⟩ | ⟨same, dropped, blocks⟩ <;>
      obtain ⟨homitted, hdepth⟩ := Prod.mk.inj blocks <;>
      rcases closed' closes with ⟨dropped', inside'⟩ | ⟨dropped', fate⟩ <;>
      rw [dropped] at dropped'
    · cases dropped'
    · rcases fate with error | ⟨-, low⟩ | ⟨n', rfl, inside'⟩
      · exact .inl (.inr ⟨closes, error⟩)
      · exact .inl (.inl low)
      · refine .inr ⟨k - 1, ?_, n', inner, inside', homitted.trans omitted, by omega, by omega⟩
        rw [closes, blockAfter, if_neg (by omega)]
    · -- the token closes the dropped block inside that was opened last
      cases inner with
      | nil =>
        rw [omitted, List.nil_append] at same
        have := earlier p.depth (List.mem_of_mem_head? same)
        omega
      | cons v inner =>
        rw [List.length_cons] at count
        refine .inr ⟨k - 1, ?_, n, inner, inside', by rw [homitted, omitted]; rfl, by omega,
          by omega⟩
        rw [closes, blockAfter, if_neg (by omega)]
    · cases dropped'
  · obtain ⟨homitted, hdepth⟩ := Prod.mk.inj (other opens closes)
    exact .inr ⟨k, blockAfter_other opens closes, n, inner, other' opens closes,
      homitted.trans omitted, count, by omega⟩

/-- The tokens inside a block. -/
theorem Within.run (ok : g.Consistent) (lay : g.Layered) (blk : g.Blocked) (steady : Steady g p)
    (earlier : ∀ v ∈ old, v < base) (h : Within m base k old p) {tokens : List Token}
    (before : ∀ t ∈ tokens, t.kind ≠ .endMarker) (balanced : blocksAfter k tokens = some k') :
    (∃ part t rest, tokens = part ++ t :: rest ∧ Leaves g m (feedFrom g p part) t) ∨
      (Steady g (feedFrom g p tokens) ∧ Within m base k' old (feedFrom g p tokens)) := by
  induction tokens generalizing p k with
  | nil =>
    cases balanced
    exact .inr ⟨steady, h⟩
  | cons t tokens ih =>
    rcases h.feed ok lay blk steady earlier t with leaves | ⟨k₁, one, within⟩
    · exact .inl ⟨[], t, tokens, rfl, leaves⟩
    · rw [blocksAfter_cons, one, Option.bind_some] at balanced
      rcases ih (steady.feed ok lay blk (before t List.mem_cons_self)) within
        (fun u hu => before u (List.mem_cons_of_mem _ hu)) balanced with
        ⟨part, u, rest, rfl, leaves⟩ | stays
      · exact .inl ⟨t :: part, u, rest, rfl, leaves⟩
      · exact .inr stays

/-! ## The depths of dropped blocks -/

/-- The depths at which opening tokens were dropped are different, the innermost the deepest, and
not beyond the present one. -/
def Bounded (p : Parser) : Prop := p.omitted.Pairwise (· > ·) ∧ ∀ v ∈ p.omitted, v ≤ p.depth

theorem Bounded.feed (ok : g.Consistent) (lay : g.Layered) (ready : Ready g p) (h : Bounded p) :
    Bounded (feed g t p).2 := by
  obtain ⟨opened, closed, other⟩ := feed_blocks ok lay ready (t := t)
  obtain ⟨descends, bounded⟩ := h
  -- the claim about what is remembered after the token
  have after {omitted : List Nat} {depth : Nat}
      (hb : (Parser.feed g t p).2.blocks = (omitted, depth))
      (hd : omitted.Pairwise (· > ·)) (hv : ∀ v ∈ omitted, v ≤ depth) :
      Bounded (Parser.feed g t p).2 := by
    obtain ⟨homitted, hdepth⟩ := Prod.mk.inj hb
    exact ⟨homitted ▸ hd, by rw [homitted, hdepth]; exact hv⟩
  by_cases opens : t.kind = .indent
  · rcases opened opens with ⟨-, blocks⟩ | ⟨-, blocks⟩
    · exact after blocks descends fun v hv => Nat.le_succ_of_le (bounded v hv)
    · refine after blocks (List.pairwise_cons.2 ⟨fun v hv => ?_, descends⟩) fun v hv => ?_
      · exact Nat.lt_succ_of_le (bounded v hv)
      · rcases List.mem_cons.1 hv with rfl | hv
        · exact Nat.le_refl _
        · exact Nat.le_succ_of_le (bounded v hv)
  by_cases closes : t.kind = .dedent
  · cases ho : p.omitted with
    | nil =>
      rcases closed closes with ⟨-, -, blocks⟩ | ⟨same, -⟩
      · exact after blocks descends fun v hv => by rw [ho] at hv; cases hv
      · rw [ho] at same; cases same
    | cons v omitted =>
      rw [ho] at descends bounded
      obtain ⟨less, descends'⟩ := List.pairwise_cons.1 descends
      have deepest := bounded v List.mem_cons_self
      rcases closed closes with ⟨different, -, blocks⟩ | ⟨same, -, blocks⟩ <;> rw [ho] at blocks
      · -- the deepest is not at the present depth, so it stays within the depth
        have : v ≠ p.depth := fun e => different (by rw [ho, e]; rfl)
        refine after blocks descends fun u hu => ?_
        rcases List.mem_cons.1 hu with rfl | hu
        · omega
        · have := less u hu
          omega
      · exact after blocks descends' fun u hu => Nat.le_trans (Nat.le_of_lt (less u hu)) deepest
  · exact after (other opens closes) descends bounded

/-- What holds of a new parser, and is kept by all tokens but the end marker. -/
theorem steady_fed (ok : g.Consistent) (lay : g.Layered) (blk : g.Blocked) {tokens : List Token}
    (before : ∀ t ∈ tokens, t.kind ≠ .endMarker) :
    Steady g (fed g tokens) ∧ Bounded (fed g tokens) := by
  have run {p : Parser} {tokens : List Token} (before : ∀ t ∈ tokens, t.kind ≠ .endMarker)
      (steady : Steady g p) (bounded : Bounded p) :
      Steady g (feedFrom g p tokens) ∧ Bounded (feedFrom g p tokens) := by
    induction tokens generalizing p with
    | nil => exact ⟨steady, bounded⟩
    | cons t tokens ih =>
      exact ih (fun u hu => before u (List.mem_cons_of_mem _ hu))
        (steady.feed ok lay blk (before t List.mem_cons_self)) (bounded.feed ok lay steady.toReady)
  obtain ⟨ready, -⟩ := ready_new ok
  obtain ⟨start, hs⟩ := ok.start
  have filled : Filled (new g).stack := by
    rw [new_stack hs]
    intro f hf
    rw [List.mem_singleton.1 hf, needs_zero]
    exact Nat.zero_le _
  exact run before ⟨ready, filled⟩ ⟨.nil, fun v hv => absurd hv List.not_mem_nil⟩

/-! ## Entering and leaving a block -/

/-- An opening token that is not dropped enters a block, one deeper than the token came. -/
theorem feed_opens (ok : g.Consistent) (lay : g.Layered) (blk : g.Blocked) (steady : Steady g p)
    (opens : t.kind = .indent) (kept : drops g p t = false) :
    ∃ f below, (feed g t p).2.stack = f :: below ∧ f.rule.name = "suite" ∧
      Within below.length (p.depth + 1) 0 p.omitted (feed g t p).2 := by
  have longer : (feed g t p).2.leaves ≠ p.leaves := by rwa [drops, beq_eq_false_iff_ne] at kept
  obtain ⟨f, below, stack, inBlock⟩ : ∃ f below, (feed g t p).2.stack = f :: below ∧
      f.rule.inBlock f.state = true := by
    rcases feed_cases ok steady.known (t := t) with ⟨-, hf⟩ | ⟨-, offers⟩
    · exact absurd (by rw [hf]; rfl) longer
    · exact offers.opens ok lay blk (steady.toReady.count t.kind) opens (by rwa [leaves_count])
  have name : f.rule.name = "suite" := by
    simp only [RuleTable.inBlock, Bool.and_eq_true, beq_iff_eq] at inBlock
    exact inBlock.1
  refine ⟨f, below, stack, name, 0, [], ?_, ?_⟩
  · refine ⟨[], (f.rule, f.state), spineOf below, spine_eq stack, ?_, inBlock, rfl⟩
    rw [spineOf, List.length_map]
  · rcases (feed_blocks ok lay steady.toReady (t := t)).1 opens with ⟨-, blocks⟩ | ⟨dropped, -⟩
    · obtain ⟨homitted, hdepth⟩ := Prod.mk.inj blocks
      exact ⟨homitted, rfl, Nat.le_of_eq hdepth.symm⟩
    · rw [kept] at dropped; cases dropped

theorem fed_append (tokens more : List Token) :
    fed g (tokens ++ more) = feedFrom g (fed g tokens) more := List.foldl_append

/-- A block whose opening token is not dropped is entered, and left by the time its closing token
has been fed, unless a closing token in it becomes an error leaf. -/
theorem block_left (ok : g.Consistent) (lay : g.Layered) (blk : g.Blocked)
    {before inner : List Token} {close : Token}
    (running : ∀ u ∈ before ++ t :: inner, u.kind ≠ .endMarker) (opens : t.kind = .indent)
    (kept : drops g (fed g before) t = false) (matching : blocksAfter 0 inner = some 0)
    (closes : close.kind = .dedent) :
    ∃ f below, (fed g (before ++ [t])).stack = f :: below ∧ f.rule.name = "suite" ∧
      ∃ part u rest, inner ++ [close] = part ++ u :: rest ∧
        Leaves g below.length (fed g (before ++ t :: part)) u := by
  have after (part : List Token) : fed g (before ++ t :: part) =
      feedFrom g (feed g t (fed g before)).2 part := fed_append before (t :: part)
  have inFront : ∀ u ∈ before, u.kind ≠ .endMarker :=
    fun u hu => running u (List.mem_append_left _ hu)
  obtain ⟨steady, -, bounded⟩ := steady_fed ok lay blk inFront
  have opened : Steady g (feed g t (fed g before)).2 :=
    steady.feed ok lay blk (running t (by simp))
  have earlier : ∀ v ∈ (fed g before).omitted, v < (fed g before).depth + 1 :=
    fun v hv => Nat.lt_succ_of_le (bounded v hv)
  obtain ⟨f, below, stack, name, within⟩ := feed_opens ok lay blk steady opens kept
  refine ⟨f, below, by rw [after]; exact stack, name, ?_⟩
  rcases within.run ok lay blk opened earlier
    (fun u hu => running u (List.mem_append_right _ (List.mem_cons_of_mem _ hu))) matching with
    ⟨part, u, rest, rfl, leaves⟩ | ⟨steady', within'⟩
  · exact ⟨part, u, rest ++ [close], by simp, by rw [after]; exact leaves⟩
  · refine ⟨inner, close, [], rfl, ?_⟩
    rw [after]
    rcases within'.feed ok lay blk steady' earlier close with leaves | ⟨k, one, -⟩
    · exact leaves
    · rw [closes] at one
      cases one

end Parser

namespace Module

/-- With the Python grammar, an opening token of a source that is not dropped enters a block. The
frame of the block is left by the time the matching closing token has been fed, unless a closing
token since then has become an error leaf. -/
theorem suite_left {source : Text} {before inner after : List Token} {t close : Token}
    (tokens : tokenize (completed source) = before ++ t :: (inner ++ close :: after))
    (opens : t.kind = .indent) (closes : close.kind = .dedent)
    (matching : blocksAfter 0 inner = some 0) :
    ∃ g, Grammar.python = .ok g ∧ (Parser.drops g (.fed g before) t = false →
      ∃ f below, (Parser.fed g (before ++ [t])).stack = f :: below ∧ f.rule.name = "suite" ∧
        ∃ part u rest, inner ++ [close] = part ++ u :: rest ∧
          Parser.Leaves g below.length (.fed g (before ++ t :: part)) u) := by
  refine ⟨Grammar.pythonTables, Grammar.python_eq, fun kept => ?_⟩
  have split : tokenize (completed source) = (before ++ t :: inner) ++ close :: after := by
    simpa using tokens
  exact Parser.block_left Grammar.python_consistent Grammar.python_layered Grammar.python_blocked
    (tokenize_before split) opens kept matching closes

/-- The block of one statement is left: its frame is on the stack behind the opening token, and
behind the closing token only those are left that were below it. -/
theorem suite_left_statement : ∃ before t inner close after,
    tokenize (completed "if x:\n    y\n".toList) = before ++ t :: (inner ++ close :: after) ∧
    t.kind = .indent ∧ close.kind = .dedent ∧ blocksAfter 0 inner = some 0 ∧
    ∃ g, Grammar.python = .ok g ∧ Parser.drops g (.fed g before) t = false ∧
      (Parser.fed g (before ++ [t])).stack.map (·.rule.name) =
        ["suite", "if_stmt", "compound_stmt", "stmt", "file_input"] ∧
      (Parser.fed g (before ++ t :: (inner ++ [close]))).stack.map (·.rule.name) =
        ["if_stmt", "compound_stmt", "stmt", "file_input"] ∧
      ∃ f below, (Parser.fed g (before ++ [t])).stack = f :: below ∧ f.rule.name = "suite" ∧
        ∃ part u rest, inner ++ [close] = part ++ u :: rest ∧
          Parser.Leaves g below.length (.fed g (before ++ t :: part)) u := by
  let tokens := tokenize (completed "if x:\n    y\n".toList)
  have split : tokens = tokens.take 4 ++ ⟨.indent, [], [], ⟨2, 4⟩⟩ ::
      ((tokens.drop 5).take 2 ++ ⟨.dedent, [], [], ⟨3, 0⟩⟩ :: tokens.drop 8) := by
    decide +kernel
  have matching : blocksAfter 0 ((tokens.drop 5).take 2) = some 0 := by decide +kernel
  have kept : Parser.drops Grammar.pythonTables (.fed Grammar.pythonTables (tokens.take 4))
      ⟨.indent, [], [], ⟨2, 4⟩⟩ = false := by
    decide +kernel
  obtain ⟨g, python, left⟩ := suite_left split rfl rfl matching
  obtain rfl : Grammar.pythonTables = g := by
    rw [Grammar.python_eq] at python
    exact Except.ok.inj python
  exact ⟨_, _, _, _, _, split, rfl, rfl, matching, _, python, kept, by decide +kernel,
    by decide +kernel, left kept⟩

/-- A source with a block that is not left. In the block there is no statement, so its closing token
has no place and becomes an error leaf. Up to the end marker the stack does not get lower than it
was with the frame of the block on top. -/
theorem suite_kept :
    let tokens := tokenize (completed "if x:\n    )\ny\n".toList)
    tokens.map (·.kind) = [.name, .name, .op .colon, .newline, .indent,
      .op .rPar, .newline, .dedent, .name, .newline, .endMarker] ∧
    ∃ g, Grammar.python = .ok g ∧
      (Parser.fed g (tokens.take 5)).stack.head?.map (·.rule.name) = some "suite" ∧
      ∀ n < 6, (Parser.fed g (tokens.take 5)).stack.length ≤
        (Parser.fed g (tokens.take (5 + n))).stack.length := by
  exact ⟨by decide +kernel, Grammar.pythonTables, Grammar.python_eq, by decide +kernel,
    by decide +kernel⟩

end Module

end Caret

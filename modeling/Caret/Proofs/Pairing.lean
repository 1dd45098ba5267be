import Caret.Proofs.Blocks
import Caret.Proofs.Lossless
/-!
# When the dropped block tokens come in pairs

Where no block may open, recovery drops the opening token and remembers the depth it came at, and
the closing token that comes at this depth is dropped too. The depth counts a dropped opening token,
but the closing token that is dropped for it is not counted. So after a pair the depth is one too
deep. For a block that stands alone this makes no difference. But where a dropped block holds
another one, the closing token of the outer block comes one too deep, and it is not dropped.

Results:
* `Parser.fates`: what becomes of the tokens.
* `Tallied`: what the parser remembers decides which closing tokens it drops.
* `paired_iff_apart`: the dropped tokens are paired if and only if no dropped block holds another.
* `Module.paired_iff`: the same of the sources that the Python grammar parses.
* `Module.unpaired`: a source whose dropped tokens are not paired.
-/
namespace Caret

/-! ## Fates of tokens -/

/-- Every closing token is dropped if and only if the opening token that it matches is dropped; the
list says of each open block, innermost first, whether its opening token was dropped. -/
def paired : List Bool → List (TokenKind × Bool) → Bool
  | blocks, [] => blocks.isEmpty
  | blocks, (.indent, dropped) :: rest => paired (dropped :: blocks) rest
  | block :: blocks, (.dedent, dropped) :: rest => (block == dropped) && paired blocks rest
  | [], (.dedent, _) :: _ => false
  | blocks, _ :: rest => paired blocks rest

/-- No opening token is dropped inside a block whose opening token was dropped. -/
def apart : List Bool → List (TokenKind × Bool) → Bool
  | _, [] => true
  | blocks, (.indent, dropped) :: rest =>
    !(dropped && blocks.contains true) && apart (dropped :: blocks) rest
  | blocks, (.dedent, _) :: rest => apart blocks.tail rest
  | blocks, _ :: rest => apart blocks rest

namespace Parser

/-- Feeding the token makes no leaf. -/
def drops (g : Grammar) (p : Parser) (t : Token) : Bool := (feed g t p).2.leaves == p.leaves

/-- What becomes of tokens: their types, and whether they are dropped. -/
def fates (g : Grammar) : Parser → List Token → List (TokenKind × Bool)
  | _, [] => []
  | p, t :: rest => (t.kind, drops g p t) :: fates g (feed g t p).2 rest

end Parser

/-- The fates follow from what is remembered of blocks: the depths at which opening tokens were
dropped, innermost first, and the present depth. -/
inductive Tallied : List Nat → Nat → List (TokenKind × Bool) → Prop
  | nil (omitted : List Nat) (depth : Nat) : Tallied omitted depth []
  | opened {omitted : List Nat} {depth : Nat} {rest : List (TokenKind × Bool)}
      (h : Tallied omitted (depth + 1) rest) : Tallied omitted depth ((.indent, false) :: rest)
  | omits {omitted : List Nat} {depth : Nat} {rest : List (TokenKind × Bool)}
      (h : Tallied ((depth + 1) :: omitted) (depth + 1) rest) :
      Tallied omitted depth ((.indent, true) :: rest)
  | closed {omitted : List Nat} {depth : Nat} {rest : List (TokenKind × Bool)}
      (other : omitted.head? ≠ some depth) (h : Tallied omitted (depth - 1) rest) :
      Tallied omitted depth ((.dedent, false) :: rest)
  | skipped {omitted : List Nat} {depth : Nat} {rest : List (TokenKind × Bool)}
      (h : Tallied omitted depth rest) :
      Tallied (depth :: omitted) depth ((.dedent, true) :: rest)
  | inside {omitted : List Nat} {depth : Nat} {kind : TokenKind} {dropped : Bool}
      {rest : List (TokenKind × Bool)} (noIndent : kind ≠ .indent) (noDedent : kind ≠ .dedent)
      (h : Tallied omitted depth rest) : Tallied omitted depth ((kind, dropped) :: rest)

variable {omitted : List Nat} {depth v : Nat} {more : List (TokenKind × Bool)}
  {blocks below : List Bool}

theorem paired_inside {kind : TokenKind} {dropped : Bool} (h : kind ≠ .indent)
    (h' : kind ≠ .dedent) :
    paired blocks ((kind, dropped) :: more) = paired blocks more := by
  cases kind <;> first | rfl | contradiction

theorem apart_inside {kind : TokenKind} {dropped : Bool} (h : kind ≠ .indent)
    (h' : kind ≠ .dedent) :
    apart blocks ((kind, dropped) :: more) = apart blocks more := by
  cases kind <;> first | rfl | contradiction

/-! ## A dropped block in a dropped block -/

/-- Once the depth is too deep for a dropped block, its closing token is not dropped, or one of the
tokens before is out of its pair. The dropped blocks inside, if there are any left, come first. -/
theorem unpaired_of_deep (above : List Bool) (inner : List Nat) (h : Tallied omitted depth more)
    (hb : blocks = above ++ true :: below) (ho : ∃ outer, omitted = inner ++ v :: outer)
    (count : inner.length = above.count true) (deep : v + above.length ≤ depth)
    (spoiled : inner ≠ [] ∨ v + above.length < depth) : paired blocks more = false := by
  induction h generalizing blocks above inner with
  | nil => rw [hb]; simp [paired]
  | opened _ ih =>
    rw [paired]
    refine ih (false :: above) inner (by rw [hb]; rfl) ho (by simpa using count) ?_
      (spoiled.imp_right fun deeper => ?_) <;> simp only [List.length_cons] <;> omega
  | omits _ ih =>
    obtain ⟨outer, rfl⟩ := ho
    rw [paired]
    refine ih (true :: above) (_ :: inner) (by rw [hb]; rfl) ⟨outer, rfl⟩ ?_ ?_
      (.inl (List.cons_ne_nil _ _))
    · simpa using count
    · simp only [List.length_cons]; omega
  | @closed omitted depth rest other _ ih =>
    cases above with
    | nil => rw [hb]; simp [paired]
    | cons block above =>
      rw [hb, List.cons_append, paired]
      cases block with
      | true => rfl
      | false =>
        simp only [List.length_cons] at deep spoiled
        exact Bool.and_eq_false_iff.2 (.inr (ih above inner rfl ho (by simpa using count) (by omega)
          (spoiled.imp_right fun deeper => by omega)))
  | @skipped omitted depth rest _ ih =>
    obtain ⟨outer, ho⟩ := ho
    cases above with
    | nil =>
      -- the token would have to come at the depth of the block, but it comes deeper
      obtain rfl : inner = [] := List.length_eq_zero_iff.1 (by simpa using count)
      cases ho
      simp at spoiled
    | cons block above =>
      rw [hb, List.cons_append, paired]
      cases block with
      | false => rfl
      | true =>
        cases inner with
        | nil => simp at count
        | cons d inner =>
          cases ho
          simp only [List.length_cons] at deep
          exact Bool.and_eq_false_iff.2 (.inr (ih above inner rfl ⟨outer, rfl⟩
            (by simpa using count) (by omega) (.inr (by omega))))
  | inside noIndent noDedent _ ih =>
    rw [paired_inside noIndent noDedent]
    exact ih above inner hb ho count deep spoiled

/-! ## One dropped block at a time -/

/-- No dropped block is open, or one is, and the depth tells how many blocks are open in it. -/
def AtMostOne (blocks : List Bool) (omitted : List Nat) (depth : Nat) : Prop :=
  (true ∉ blocks ∧ omitted = []) ∨ ∃ above below v, blocks = above ++ true :: below ∧
    true ∉ above ∧ true ∉ below ∧ omitted = [v] ∧ depth = v + above.length

/-- Opening a block that is not dropped. -/
theorem AtMostOne.opened (h : AtMostOne blocks omitted depth) :
    AtMostOne (false :: blocks) omitted (depth + 1) := by
  rcases h with ⟨none, ho⟩ | ⟨above, below, v, rfl, ha, hb, ho, rfl⟩
  · exact .inl ⟨by simpa using none, ho⟩
  · exact .inr ⟨false :: above, below, v, rfl, by simpa using ha, hb, ho, rfl⟩

/-- Closing a block that is not dropped, where the closing token is not dropped. -/
theorem AtMostOne.closed {block : Bool} (h : AtMostOne (block :: blocks) omitted depth)
    (other : omitted.head? ≠ some depth) :
    block = false ∧ AtMostOne blocks omitted (depth - 1) := by
  rcases h with ⟨none, ho⟩ | ⟨above, below, v, hblocks, ha, hb, rfl, rfl⟩
  · simp only [List.mem_cons, not_or] at none
    exact ⟨by simpa using none.1, .inl ⟨none.2, ho⟩⟩
  · cases above with
    | nil => exact absurd rfl other
    | cons b above =>
      obtain ⟨rfl, rfl⟩ := List.cons.inj hblocks
      simp only [List.mem_cons, not_or] at ha
      exact ⟨by simpa using ha.1, .inr ⟨above, below, v, rfl, ha.2, hb, rfl, rfl⟩⟩

/-- Closing a block where the closing token is dropped. -/
theorem AtMostOne.skipped {block : Bool}
    (h : AtMostOne (block :: blocks) (depth :: omitted) depth) :
    block = true ∧ AtMostOne blocks omitted depth := by
  rcases h with ⟨-, ho⟩ | ⟨above, below, v, hblocks, ha, hb, ho, deep⟩
  · cases ho
  · obtain ⟨rfl, rfl⟩ := List.cons.inj ho
    obtain rfl : above = [] := List.length_eq_zero_iff.1 (by omega)
    obtain ⟨rfl, rfl⟩ := List.cons.inj hblocks
    exact ⟨rfl, .inl ⟨hb, rfl⟩⟩

/-- How many blocks are open after these fates; none if one closes that is not open. -/
def openAfter (n : Nat) (fates : List (TokenKind × Bool)) : Option Nat :=
  fates.foldlM (fun n fate => blockAfter n fate.1) n

/-- If all blocks are closed, the dropped tokens are paired if and only if no dropped block holds
another. -/
theorem paired_iff_apart (h : Tallied omitted depth more)
    (balanced : openAfter blocks.length more = some 0) (one : AtMostOne blocks omitted depth) :
    paired blocks more = true ↔ apart blocks more = true := by
  induction h generalizing blocks with
  | nil =>
    cases blocks with
    | nil => exact Iff.rfl
    | cons => simp [openAfter] at balanced
  | opened _ ih =>
    rw [paired, apart, Bool.false_and, Bool.not_false, Bool.true_and]
    exact ih balanced one.opened
  | @omits omitted depth rest h ih =>
    rw [paired, apart]
    rcases one with ⟨none, rfl⟩ | ⟨above, below, v, rfl, ha, hb, rfl, rfl⟩
    · have fresh : blocks.contains true = false := by simpa using none
      rw [fresh, Bool.and_false, Bool.not_false, Bool.true_and]
      exact ih balanced (.inr ⟨[], blocks, _, rfl, List.not_mem_nil, none, rfl, rfl⟩)
    · have spoiled : paired (true :: (above ++ true :: below)) rest = false := by
        refine unpaired_of_deep (true :: above) [_] h rfl ⟨[], rfl⟩ ?_
          (Nat.le_of_eq rfl) (.inl (List.cons_ne_nil _ _))
        rw [List.count_cons_self, List.count_eq_zero.2 ha]
        rfl
      have holds : (above ++ true :: below).contains true = true := by simp
      rw [spoiled, holds]
      exact iff_of_false Bool.false_ne_true Bool.false_ne_true
  | closed other _ ih =>
    cases blocks with
    | nil => cases balanced
    | cons block blocks =>
      obtain ⟨rfl, one'⟩ := one.closed other
      exact ih balanced one'
  | skipped _ ih =>
    cases blocks with
    | nil => cases balanced
    | cons block blocks =>
      obtain ⟨rfl, one'⟩ := one.skipped
      exact ih balanced one'
  | inside noIndent noDedent _ ih =>
    rw [paired_inside noIndent noDedent, apart_inside noIndent noDedent]
    refine ih ?_ one
    rwa [openAfter, List.foldlM_cons, blockAfter_other noIndent noDedent] at balanced

/-! ## What the parser remembers -/

namespace Parser

variable {g : Grammar} {p q : Parser} {t : Token} {tokens : List Token}

/-- A token that is offered makes a leaf, or opens a block and is dropped; then its depth is
remembered. -/
theorem Offers.blocks_eq {r : Except ParseError Bool × Parser} (ok : g.Consistent)
    (lay : g.Layered) (h : Offers g t p r) (ready : Ready g p) :
    (r.2.leaves ≠ p.leaves ∧ r.2.blocks = p.blocks) ∨
      (t.kind = .indent ∧ r.2.leaves = p.leaves ∧
        r.2.blocks = (p.depth :: p.omitted, p.depth)) := by
  have longer {ls : List Leaf} {l : Leaf} : ls ++ [l] ≠ ls := by simp
  rcases h.fate (P := fun _ => True) ok lay ready (fun _ _ => trivial) (fun _ _ => trivial) trivial
    with ⟨q, label, done, ready', -, same, blocks, -, runs, -⟩ | ⟨-, -, -, dropped | ⟨-, made⟩⟩
  · obtain ⟨-, leaves, -⟩ := runs.leaves_eq ready'.whole
    exact .inl ⟨by rw [leaves ⟨_, rfl⟩, same]; exact longer, runs.blocks_eq.trans blocks⟩
  · exact .inr dropped
  · exact .inl ⟨by rw [made.1]; exact longer, made.2⟩

/-- What feeding a token does to what is remembered of blocks, and whether it drops the token. -/
theorem feed_blocks (ok : g.Consistent) (lay : g.Layered) (ready : Ready g p) :
    (t.kind = .indent →
      (drops g p t = false ∧ (feed g t p).2.blocks = (p.omitted, p.depth + 1)) ∨
      (drops g p t = true ∧ (feed g t p).2.blocks = ((p.depth + 1) :: p.omitted, p.depth + 1))) ∧
    (t.kind = .dedent →
      (p.omitted.head? ≠ some p.depth ∧ drops g p t = false ∧
        (feed g t p).2.blocks = (p.omitted, p.depth - 1)) ∨
      (p.omitted.head? = some p.depth ∧ drops g p t = true ∧
        (feed g t p).2.blocks = (p.omitted.tail, p.depth))) ∧
    (t.kind ≠ .indent → t.kind ≠ .dedent → (feed g t p).2.blocks = (p.omitted, p.depth)) := by
  rcases feed_cases ok ready.known (t := t) with ⟨closes, hf⟩ | ⟨offered, offers⟩
  · obtain ⟨kind, omitted⟩ : t.kind = .dedent ∧ p.omitted.head? = some p.depth := by
      simpa [closesOmitted] using closes
    have dropped : drops g p t = true := by rw [drops, hf]; exact beq_self_eq_true _
    refine ⟨fun opens => ?_, fun _ => .inr ⟨omitted, dropped, by rw [hf]; rfl⟩,
      fun _ other => absurd kind other⟩
    rw [kind] at opens
    cases opens
  · have outcome := offers.blocks_eq ok lay (ready.count t.kind)
    rw [leaves_count] at outcome
    refine ⟨fun opens => ?_, fun closes => ?_, fun noIndent noDedent => ?_⟩
    · rw [opens] at outcome
      rcases outcome with ⟨leaf, blocks⟩ | ⟨-, none, blocks⟩
      · exact .inl ⟨beq_eq_false_iff_ne.2 leaf, blocks⟩
      · exact .inr ⟨beq_iff_eq.2 none, blocks⟩
    · have noIndent : t.kind ≠ .indent := by rw [closes]; decide
      obtain ⟨leaf, blocks⟩ := outcome.resolve_right fun dropped => noIndent dropped.1
      refine .inl ⟨?_, beq_eq_false_iff_ne.2 leaf, by rw [blocks, closes]; rfl⟩
      simpa [closesOmitted, closes] using offered
    · obtain ⟨-, blocks⟩ := outcome.resolve_right fun dropped => noIndent dropped.1
      rw [blocks]
      unfold count
      split <;> first | contradiction | rfl

/-- The fates of the tokens up to the end marker follow from what is remembered. -/
theorem tallied_fates (ok : g.Consistent) (lay : g.Layered) {body : List Token} {last : Token}
    (inner : ∀ t ∈ body, t.kind ≠ .endMarker) (marker : last.kind = .endMarker)
    (ready : Ready g p) : Tallied p.omitted p.depth (fates g p (body ++ [last])) := by
  induction body generalizing p with
  | nil => exact .inside (by simp [marker]) (by simp [marker]) (.nil _ _)
  | cons t body ih =>
    obtain ⟨-, goesOn, -⟩ := feed_lossless (t := t) ok lay ready
    obtain ⟨opened, closed, other⟩ := feed_blocks (t := t) ok lay ready
    have next := ih (fun u hu => inner u (List.mem_cons_of_mem _ hu))
      (goesOn (inner t List.mem_cons_self)).2
    -- what is remembered after the token
    have after {omitted : List Nat} {depth : Nat}
        (h : (feed g t p).2.blocks = (omitted, depth)) :
        Tallied omitted depth (fates g (feed g t p).2 (body ++ [last])) := by
      obtain ⟨homitted, hdepth⟩ := Prod.mk.inj h
      rwa [homitted, hdepth] at next
    rw [List.cons_append, fates]
    by_cases opens : t.kind = .indent
    · rcases opened opens with ⟨dropped, blocks⟩ | ⟨dropped, blocks⟩ <;> rw [opens, dropped]
      · exact .opened (after blocks)
      · exact .omits (after blocks)
    by_cases closes : t.kind = .dedent
    · rcases closed closes with ⟨omitted, dropped, blocks⟩ | ⟨omitted, dropped, blocks⟩ <;>
        rw [closes, dropped]
      · exact .closed omitted (after blocks)
      · obtain ⟨more, hmore⟩ := List.head?_eq_some_iff.1 omitted
        rw [hmore] at blocks ⊢
        exact .skipped (after blocks)
    · exact .inside opens closes (after (other opens closes))

theorem openAfter_fates (n : Nat) : openAfter n (fates g p tokens) = blocksAfter n tokens := by
  induction tokens generalizing n p with
  | nil => rfl
  | cons t tokens ih =>
    rw [fates, openAfter, List.foldlM_cons, blocksAfter_cons]
    exact Option.bind_congr fun m _ => ih m

end Parser

namespace Module

/-- The fates of the tokens of a source. -/
def fates (g : Grammar) (source : Text) : List (TokenKind × Bool) :=
  Parser.fates g (.new g) (tokenize (completed source))

/-- With the Python grammar the dropped block tokens of a source are paired if and only if none of
them opens a block inside a block whose opening token was dropped as well. -/
theorem paired_iff (source : Text) : ∃ g, Grammar.python = .ok g ∧
    (paired [] (fates g source) = true ↔ apart [] (fates g source) = true) := by
  refine ⟨Grammar.pythonTables, Grammar.python_eq, ?_⟩
  have ok := Grammar.python_consistent
  obtain ⟨body, last, tokens, marker, inner⟩ := tokenize_eq (completed source)
  have tallied := Parser.tallied_fates ok Grammar.python_layered inner marker
    (Parser.ready_new ok).1
  rw [← tokens] at tallied
  exact paired_iff_apart tallied ((Parser.openAfter_fates 0).trans (blocksAfter_tokenize _))
    (.inl ⟨List.not_mem_nil, rfl⟩)

/-- Of two dropped blocks, one in the other, the outer one closes with a token that is not dropped.
-/
theorem unpaired : ∃ g, Grammar.python = .ok g ∧
    paired [] (fates g "  x\n    y\nz\n".toList) = false :=
  ⟨Grammar.pythonTables, Grammar.python_eq, by decide +kernel⟩

end Module

end Caret

import Mathlib.Data.List.Induction
import Caret.Proofs.Blocks
/-!
# Where line ends and block tokens stand

Inside brackets line breaks are passed over, so a logical line ends where no bracket is open. The
next one starts there, and only at its start, before any other token, blocks open and close by its
margin; at the end of the source those that are left close. The margins of the open blocks get
deeper inwards, for a block opens at a deeper margin than the last one only.

Results:
* `Stacked`: margins of open blocks, from the source inwards.
* `LaidOut`: tokens with their line ends and block tokens where they may stand.
* `Scanner.Kept`: what every round keeps.
* `Scanner.tokens_laidOut`: the tokens of some rounds are laid out.
* `tokenize_laidOut`: the layout of the tokens of a source.
-/
namespace Caret

/-- Margins of open blocks, innermost first: each is deeper than those around it, and the outermost
is the margin 0 of the source. -/
def Stacked (margins : List Nat) : Prop := margins.Pairwise (· > ·) ∧ margins.getLast? = some 0

/-- A line starts behind the tokens: there are none but block tokens, or the last of the others is a
line end. -/
def StartsLine (tokens : List Token) : Prop :=
  ∃ front blocks, tokens = front ++ blocks ∧ (∀ u ∈ blocks, u.kind = .indent ∨ u.kind = .dedent) ∧
    ∀ u ∈ front.getLast?, u.kind = .newline

/-- Blocks close, and the source ends. -/
def ClosesSource (tokens : List Token) : Prop :=
  ∃ blocks last, tokens = blocks ++ [last] ∧ (∀ u ∈ blocks, u.kind = .dedent) ∧
    last.kind = .endMarker

variable {depth n k : Nat} {lineStart : Bool} {t : Token} {ts us : List Token}

/-! ## Counting -/

/-- The blocks that are open are those that were open and those that opened, less those that
closed. -/
theorem blocksAfter_count (h : blocksAfter n ts = some k) :
    k + ts.countP (·.kind = .dedent) = n + ts.countP (·.kind = .indent) := by
  induction ts generalizing n with
  | nil =>
    cases h
    rfl
  | cons t ts ih =>
    rw [blocksAfter_cons] at h
    obtain ⟨m, first, more⟩ := Option.bind_eq_some_iff.1 h
    have rest := ih more
    rw [List.countP_cons, List.countP_cons]
    cases kind : t.kind <;> simp only [kind, blockAfter] at first ⊢ <;>
      simp only [reduceCtorEq, decide_true, decide_false, if_true, Bool.false_eq_true, if_false]
    case indent =>
      cases first
      omega
    case dedent =>
      split at first <;> cases first
      omega
    all_goals
      cases first
      omega

/-- Of the blocks that open some may be open still. -/
theorem blocksAfter_count_le (h : blocksAfter 0 (ts ++ us) = some k) :
    ts.countP (·.kind = .dedent) ≤ ts.countP (·.kind = .indent) := by
  rw [blocksAfter_append] at h
  obtain ⟨m, first, -⟩ := Option.bind_eq_some_iff.1 h
  have := blocksAfter_count first
  omega

/-! ## Tokens that are laid out -/

/-- Whether a line starts behind the tokens, if one starts before them or not. -/
def lineStartBehind (lineStart : Bool) (tokens : List Token) : Bool :=
  tokens.foldl (fun starts t =>
    if t.kind = .indent ∨ t.kind = .dedent then starts else t.kind = .newline) lineStart

theorem startsLine_of_lineStartBehind (h : lineStartBehind true ts = true) : StartsLine ts := by
  induction ts using List.reverseRecOn with
  | nil => exact ⟨[], [], rfl, by simp, by simp⟩
  | append_singleton ts t ih =>
    rw [lineStartBehind, List.foldl_append] at h
    simp only [List.foldl_cons, List.foldl_nil] at h
    split at h
    · next block =>
      obtain ⟨front, blocks, rfl, own, line⟩ := ih h
      refine ⟨front, blocks ++ [t], List.append_assoc .., fun u hu => ?_, line⟩
      rcases List.mem_append.1 hu with hu | hu
      · exact own u hu
      · rw [List.mem_singleton.1 hu]
        exact block
    · refine ⟨ts ++ [t], [], (List.append_nil _).symm, by simp, fun u hu => ?_⟩
      rw [List.getLast?_concat] at hu
      cases hu
      simpa using h

/-- The tokens are laid out, so many brackets being open before them, and at the start of a line or
not. -/
inductive LaidOut : (depth : Nat) → (lineStart : Bool) → List Token → Prop
  | nil {depth : Nat} {lineStart : Bool} : LaidOut depth lineStart []
  | block {t : Token} {ts : List Token} (h : t.kind = .indent ∨ t.kind = .dedent)
      (more : LaidOut 0 true ts) : LaidOut 0 true (t :: ts)
  | lineEnd {lineStart : Bool} {t : Token} {ts : List Token} (h : t.kind = .newline)
      (more : LaidOut 0 true ts) : LaidOut 0 lineStart (t :: ts)
  | inside {depth : Nat} {lineStart : Bool} {t : Token} {ts : List Token}
      (h : t.kind ∉ [.newline, .indent, .dedent])
      (more : LaidOut (Scanner.depthAfter t.kind depth) false ts) :
      LaidOut depth lineStart (t :: ts)
  /-- At the end of the source blocks close wherever it ends. -/
  | ends {depth : Nat} {lineStart : Bool} {ts : List Token} (h : ClosesSource ts) :
      LaidOut depth lineStart ts

theorem ClosesSource.head (h : ClosesSource (t :: ts)) :
    (t.kind = .endMarker ∧ ts = []) ∨ (t.kind = .dedent ∧ ClosesSource ts) := by
  obtain ⟨blocks, last, split, own, marker⟩ := h
  cases blocks with
  | nil =>
    cases split
    exact .inl ⟨marker, rfl⟩
  | cons u blocks =>
    cases split
    exact .inr ⟨own _ List.mem_cons_self, blocks, last, rfl,
      fun v hv => own v (List.mem_cons_of_mem _ hv), marker⟩

namespace LaidOut

/-- Block tokens at the start of a line. -/
theorem blocks (h : ∀ u ∈ us, u.IsLayout) (more : LaidOut 0 true ts) :
    LaidOut 0 true (us ++ ts) := by
  induction us with
  | nil => exact more
  | cons u us ih =>
    exact .block (h u List.mem_cons_self).kind (ih fun v hv => h v (List.mem_cons_of_mem _ hv))

/-- A token that is no block token, and if it ends a line, no bracket is open. -/
theorem lexeme (noIndent : t.kind ≠ .indent) (noDedent : t.kind ≠ .dedent)
    (flat : t.kind = .newline → depth = 0)
    (more : LaidOut (Scanner.depthAfter t.kind depth) (t.kind = .newline) ts) :
    LaidOut depth lineStart (t :: ts) := by
  by_cases line : t.kind = .newline
  · obtain rfl := flat line
    rw [decide_eq_true line, line] at more
    exact .lineEnd line more
  · rw [decide_eq_false line] at more
    exact .inside (by simp [line, noIndent, noDedent]) more

/-- Behind the first of the tokens the others are laid out. -/
theorem drop (h : LaidOut depth lineStart (us ++ ts)) :
    LaidOut (depthBehind depth us) (lineStartBehind lineStart us) ts := by
  induction us generalizing depth lineStart with
  | nil => exact h
  | cons u us ih =>
    rw [List.cons_append] at h
    rw [depthBehind, lineStartBehind, List.foldl_cons, List.foldl_cons]
    cases h with
    | block kind more =>
      have same : Scanner.depthAfter u.kind 0 = 0 := by
        rcases kind with kind | kind <;> (rw [kind]; rfl)
      rw [same, if_pos kind]
      exact ih more
    | lineEnd kind more =>
      have step := ih more
      rw [kind]
      exact step
    | inside kind more =>
      simp only [List.mem_cons, List.not_mem_nil, or_false, not_or] at kind
      obtain ⟨noLine, noIndent, noDedent⟩ := kind
      rw [if_neg (by simp [noIndent, noDedent]), decide_eq_false noLine]
      exact ih more
    | ends closes =>
      rcases closes.head with ⟨-, none⟩ | ⟨-, closes⟩
      · obtain ⟨rfl, rfl⟩ := List.append_eq_nil_iff.1 none
        exact .nil
      · exact ih (.ends closes)

/-- A line ends, and a block opens, where no bracket is open. -/
theorem flat (h : LaidOut depth lineStart (t :: ts)) (kind : t.kind = .newline ∨ t.kind = .indent) :
    depth = 0 := by
  cases h with
  | block | lineEnd => rfl
  | inside other => rcases kind with kind | kind <;> simp [kind] at other
  | ends closes =>
    rcases closes.head with ⟨other, -⟩ | ⟨other, -⟩ <;> simp [other] at kind

/-- Blocks open and close at the start of a line, or close at the end of the source. -/
theorem starts (h : LaidOut depth lineStart (t :: ts))
    (kind : t.kind = .indent ∨ (t.kind = .dedent ∧ ¬ ClosesSource ts)) : lineStart = true := by
  cases h with
  | block => rfl
  | lineEnd other => simp [other] at kind
  | inside other => rcases kind with kind | ⟨kind, -⟩ <;> simp [kind] at other
  | ends closes =>
    rcases closes.head with ⟨other, -⟩ | ⟨other, closes⟩ <;> simp [other, closes] at kind

end LaidOut

/-! ## Rounds -/

theorem Stacked.layout {margins : List Nat} (h : Stacked margins) (width : Nat) (at_ : Position) :
    Stacked (Scanner.layout margins width at_).2 := by
  obtain ⟨sorted, bottom⟩ := h
  refine ⟨?_, (Scanner.layout_margins bottom width at_).2⟩
  unfold Scanner.layout
  split
  · next deeper =>
    refine List.pairwise_cons.2 ⟨fun m hm => ?_, sorted⟩
    cases margins with
    | nil => cases hm
    | cons top margins =>
      rcases List.mem_cons.1 hm with rfl | hm
      · exact deeper
      · exact Nat.lt_trans ((List.pairwise_cons.1 sorted).1 m hm) deeper
  · exact sorted.sublist (List.dropWhile_sublist _)

namespace Scanner

variable {s : Scanner} {c : Char} {rest : Text}

/-- What every round keeps: margins get deeper inwards, and where a line starts no bracket is
open. -/
structure Kept (s : Scanner) : Prop where
  margins : Stacked s.margins
  flat : s.atLineStart = true → s.depth = 0

theorem Kept.approach (h : s.Kept) : Stacked s.approach.margins := by
  rcases s.approach_blocks with ⟨-, same⟩ | ⟨-, width, _, -, -, margins⟩
  · rw [same]
    exact h.margins
  · rw [margins]
    exact h.margins.layout width _

/-- Between brackets no line break is left to read. -/
theorem gap_brackets {inComment : Bool} {text : Text}
    (h : (gap true inComment text).2 = c :: rest) : c ≠ '\n' ∧ c ≠ '\r' := by
  fun_induction gap true inComment text with
  | case8 inComment d rest' noReturn _ _ _ continues stops =>
    cases h
    constructor <;> (rintro rfl; cases inComment <;> simp [continues] at stops)
  | _ => simp_all

/-- A line ends where no bracket is open. -/
theorem depth_of_newline (h : s.approach.rest = c :: rest)
    (kind : (lexeme c rest).kind = .newline) : s.depth = 0 := by
  obtain ⟨_, line, passed, -, -, between, -⟩ := s.approach_gap
  by_contra open_
  rw [decide_eq_true (Nat.pos_of_ne_zero open_), h] at between
  obtain ⟨noFeed, noReturn⟩ := gap_brackets (congrArg Prod.snd between)
  rcases lexeme_kinds c rest with other | ⟨o, other⟩ | ⟨-, line⟩
  · rw [kind] at other
    simp at other
  · rw [kind] at other
    cases other
  · exact line.elim noFeed noReturn

theorem Kept.round (h : s.Kept) : s.round.next.Kept := by
  obtain ⟨sorted, bottom⟩ := h.approach
  cases hrest : s.approach.rest with
  | nil =>
    rw [round_last hrest]
    refine ⟨⟨sorted.sublist (List.drop_sublist ..), ?_⟩, h.flat⟩
    obtain ⟨front, hfront⟩ := List.getLast?_eq_some_iff.1 bottom
    dsimp only
    rw [hfront, List.length_append, List.length_singleton, Nat.add_sub_cancel, List.drop_left]
    rfl
  | cons c rest =>
    rw [round_lexeme hrest]
    refine ⟨⟨sorted, bottom⟩, fun line => ?_⟩
    have kind : (lexeme c rest).kind = .newline := by simpa using line
    show depthAfter (lexeme c rest).kind s.depth = 0
    rw [kind]
    exact depth_of_newline hrest kind

/-- The tokens of some rounds are laid out. -/
theorem tokens_laidOut (n : Nat) (h : s.Kept) : LaidOut s.depth s.atLineStart (s.tokens n) := by
  induction n generalizing s with
  | zero => exact .nil
  | succ n ih =>
    -- the block tokens of the line start, and what is laid out behind them
    have blocks {ts : List Token} (more : LaidOut s.depth s.atLineStart ts) :
        LaidOut s.depth s.atLineStart (s.approach.blocks ++ ts) := by
      obtain ⟨_, -, own⟩ := s.approach_isLayout
      rcases s.approach_blocks with ⟨none, -⟩ | ⟨start, -⟩
      · rw [none]
        exact more
      · rw [start, h.flat start] at more ⊢
        exact .blocks (fun t ht => (own t ht).1) more
    have kept := h.round
    rw [tokens]
    cases hrest : s.approach.rest with
    | nil =>
      rw [round_last hrest, if_pos rfl, List.append_assoc]
      refine blocks (.ends ⟨_, _, rfl, fun u hu => ?_, rfl⟩)
      rw [List.eq_of_mem_replicate hu]
      rfl
    | cons c rest =>
      have more := ih kept
      rw [round_lexeme hrest] at more ⊢
      rw [if_neg Bool.false_ne_true, List.append_assoc]
      obtain ⟨noIndent, noDedent, -⟩ := lexeme_kind c rest
      exact blocks (.lexeme noIndent noDedent (depth_of_newline hrest) more)

end Scanner

/-! ## Sources -/

namespace TokenStream

/-- The streams of a text: at its start, and behind the tokens that are pulled from it. -/
inductive Reached (text : Text) : TokenStream → Prop
  | start : Reached text (ofText text)
  | next {s s' : TokenStream} {t : Token} (h : Reached text s) (h' : s.next? = some (t, s')) :
      Reached text s'

theorem Reached.kept {text : Text} {s : TokenStream} (h : Reached text s) : s.scanner.Kept := by
  induction h with
  | start => exact ⟨⟨List.pairwise_singleton _ _, rfl⟩, fun _ => rfl⟩
  | @next s s' t _ pulled ih =>
    unfold next? at pulled
    split at pulled
    · cases pulled
      exact ih
    · split at pulled
      · cases pulled
      · dsimp only at pulled
        split at pulled
        · cases pulled
          exact ih.round
        · cases pulled

end TokenStream

/-- The layout of the tokens of a source. Behind any of the tokens no more blocks have closed than
opened, and at the end all have. The margins of the open blocks get deeper inwards from 0, between
the rounds of the scanner and within. Lines end and blocks open where no bracket is open, and blocks
open and close at the start of a line only, but for those that close at the end of the source. -/
theorem tokenize_laidOut (text : Text) :
    (∀ before after, tokenize text = before ++ after →
      before.countP (·.kind = .dedent) ≤ before.countP (·.kind = .indent)) ∧
    (tokenize text).countP (·.kind = .dedent) = (tokenize text).countP (·.kind = .indent) ∧
    (∀ s, TokenStream.Reached text s →
      Stacked s.scanner.margins ∧ Stacked s.scanner.approach.margins) ∧
    ∀ before t after, tokenize text = before ++ t :: after →
      (t.kind = .newline ∨ t.kind = .indent → depthBehind 0 before = 0) ∧
      (t.kind = .indent ∨ (t.kind = .dedent ∧ ¬ ClosesSource after) → StartsLine before) := by
  have balanced := blocksAfter_tokenize text
  refine ⟨fun before after split => ?_, ?_, fun s reached => ?_, fun before t after split => ?_⟩
  · rw [split] at balanced
    exact blocksAfter_count_le balanced
  · have := blocksAfter_count balanced
    omega
  · exact ⟨reached.kept.margins, reached.kept.approach⟩
  · have laidOut : LaidOut 0 true (tokenize text) :=
      Scanner.tokens_laidOut _ TokenStream.Reached.start.kept
    rw [split] at laidOut
    exact ⟨laidOut.drop.flat, fun kind => startsLine_of_lineStartBehind (laidOut.drop.starts kind)⟩

/-- A line break in brackets opens no block. The line behind them opens one, and the last line
closes it before the end of the source. -/
theorem tokenize_laidOut_brackets :
    ∃ front opening inner closing rest,
      tokenize "(\n)\n b\nc".toList = (front ++ opening :: inner) ++ closing :: rest ∧
      opening.kind = .indent ∧ depthBehind 0 front = 0 ∧
      closing.kind = .dedent ∧ ¬ ClosesSource rest ∧ StartsLine (front ++ opening :: inner) ∧
      front.countP (·.kind = .dedent) ≤ front.countP (·.kind = .indent) ∧
      Stacked (Scanner.ofText "(\n)\n b\nc".toList).margins := by
  obtain ⟨counts, -, margins, places⟩ := tokenize_laidOut "(\n)\n b\nc".toList
  obtain ⟨front, opening, inner, closing, rest, split, opens, closes, visible⟩ :
      ∃ front opening inner closing rest,
        tokenize "(\n)\n b\nc".toList = (front ++ opening :: inner) ++ closing :: rest ∧
        opening.kind = .indent ∧ closing.kind = .dedent ∧
        rest.map Token.kind = [.name, .endMarker] :=
    ⟨[⟨.op .lPar, ['('], [], .start⟩, ⟨.op .rPar, [')'], ['\n'], ⟨2, 0⟩⟩,
        ⟨.newline, ['\n'], [], ⟨2, 1⟩⟩], ⟨.indent, [], [], ⟨3, 1⟩⟩,
      [⟨.name, ['b'], [' '], ⟨3, 1⟩⟩, ⟨.newline, ['\n'], [], ⟨3, 2⟩⟩], ⟨.dedent, [], [], ⟨4, 0⟩⟩,
      [⟨.name, ['c'], [], ⟨4, 0⟩⟩, ⟨.endMarker, [], [], ⟨4, 1⟩⟩], by decide +kernel, rfl, rfl, rfl⟩
  have goesOn : ¬ ClosesSource rest := by
    obtain ⟨name, rest, rfl⟩ :=
      List.exists_cons_of_ne_nil (l := rest) (by rintro rfl; cases visible)
    intro h
    have kind : name.kind = .name := (List.cons.inj visible).1
    rcases h.head with ⟨other, -⟩ | ⟨other, -⟩ <;> (rw [kind] at other; cases other)
  have split' : tokenize "(\n)\n b\nc".toList = front ++ opening :: (inner ++ closing :: rest) := by
    rw [split, List.append_assoc, List.cons_append]
  exact ⟨front, opening, inner, closing, rest, split, opens,
    (places front opening _ split').1 (.inr opens), closes, goesOn,
    (places _ closing rest split).2 (.inr ⟨closes, goesOn⟩), counts front _ split',
    (margins _ .start).1⟩

end Caret

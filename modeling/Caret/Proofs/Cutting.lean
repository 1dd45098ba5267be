import Caret.Proofs.Lines
import Caret.Proofs.Lookup
import Caret.Proofs.Truncation
/-!
# Tokens of a text that is cut off

Up to a token the scanner does the same whatever comes behind the first character of the token, at
line starts as well as inside a line. So a text that is cut off behind a token, or in a name, has
the same tokens up to there, and then what closes the source. Two texts that begin alike have the
same tokens up to the place where they part, if that is the end of a token or in a name.

Results:
* `Scanner.approach_front`: what a round does before it reads a token.
* `Scanner.round_upTo`, `Scanner.round_cut`: a round, if the text is cut off behind the token that
  it reads, and in this token.
* `tokenize_cut`: the tokens of a text that is cut off.
* `tokenize_common`: the tokens of two texts that begin alike.
-/
namespace Caret

/-- A token inside a logical line closes nothing. -/
theorem Token.IsInner.not_closing {t : Token} (h : t.IsInner) :
    ¬ (t.IsLayout ∨ t.kind = .endMarker) := by
  rintro (layout | marker)
  · exact h.not_layout layout
  · simp [Token.IsInner, marker] at h

namespace Scanner

variable {text rest tail tail' x z : Text} {c d : Char} {s : Scanner} {u : Token}
  {A C : List Token}

/-- A margin is the same up to the first visible character, whatever comes behind it. -/
theorem margin_front {inComment : Bool} {width : Nat} (free : '\r' ∉ text)
    (h : (margin inComment width text).rest = d :: rest) (rest' : Text) :
    margin inComment width ((margin inComment width text).passed ++ d :: rest') =
      ⟨(margin inComment width text).passed, (margin inComment width text).width, d :: rest'⟩ := by
  induction text generalizing inComment width with
  | nil => cases h
  | cons c text ih =>
    have noReturn : c ≠ '\r' := by
      rintro rfl
      exact free List.mem_cons_self
    -- a character is passed over whatever comes behind it, or it is the visible one
    have step {inComment' : Bool} {width' : Nat}
        (passed : ∀ more, margin inComment width (c :: more) =
          (margin inComment' width' more).after c)
        (h : ((margin inComment' width' text).after c).rest = d :: rest) :
        margin inComment width (((margin inComment' width' text).after c).passed ++ d :: rest') =
          ⟨((margin inComment' width' text).after c).passed,
            ((margin inComment' width' text).after c).width, d :: rest'⟩ := by
      have behind := ih (fun h => free (List.mem_cons_of_mem _ h)) h
      rw [Margin.after, List.cons_append, passed, behind, Margin.after]
    rw [margin_step noReturn] at h ⊢
    split_ifs at h ⊢ with feed comment space tab page hash
    all_goals
      first
      | exact step (fun more => by rw [margin_step noReturn]; simp [*]) h
      | cases h
        rw [List.nil_append, margin_step noReturn]
        simp [*]

/-- What a line starts with is the same up to the first visible character. -/
theorem line_front {line : Margin} (free : '\r' ∉ s.rest)
    (start : (if s.atLineStart then margin false 0 s.rest else ⟨[], 0, s.rest⟩) = line)
    (h : line.rest = d :: rest) (rest' : Text) :
    (if s.atLineStart then margin false 0 (line.passed ++ d :: rest')
      else ⟨[], 0, line.passed ++ d :: rest'⟩) = ⟨line.passed, line.width, d :: rest'⟩ := by
  cases first : s.atLineStart <;> rw [first] at start <;> subst start
  · rfl
  · exact margin_front free h rest'

/-- Up to a lexeme a round does the same whatever comes behind the first character of it. -/
theorem approach_front (h : s.approach.rest = c :: tail) (noEscape : c ≠ '\\')
    (free : '\r' ∉ s.rest) (free' : '\r' ∉ tail') :
    ({ s with rest := s.approach.trivia ++ c :: tail' } : Scanner).approach =
      { s.approach with rest := c :: tail' } := by
  have noReturn : '\r' ∉ s.approach.trivia ++ c :: tail := h ▸ s.approach_text ▸ free
  unfold approach at h noReturn ⊢
  dsimp only at h noReturn ⊢
  generalize start : (if s.atLineStart then margin false 0 s.rest else ⟨[], 0, s.rest⟩) = line
    at h noReturn ⊢
  have whole := gap_append (0 < s.depth) false line.rest
  have between : Gap (0 < s.depth) false (gap (0 < s.depth) false line.rest).1
      (gap (0 < s.depth) false line.rest).2 := gap_gap (by
    rw [← whole, h]
    exact fun h => noReturn (by rw [List.append_assoc]; exact List.mem_append_right _ h))
  rw [h] at whole between
  generalize (gap (0 < s.depth) false line.rest).1 = passed at whole between noReturn ⊢
  have between' : Gap (0 < s.depth) false passed (c :: tail') := between.front noEscape
  have same := between'.gap_eq (by
    intro h
    rcases List.mem_append.1 h with h | h
    · exact noReturn (List.mem_append_left _ (List.mem_append_right _ h))
    · rcases List.mem_cons.1 h with rfl | h
      · exact noReturn (List.mem_append_right _ List.mem_cons_self)
      · exact free' h)
  -- the line goes on with the gap, or with the lexeme
  obtain ⟨d, rest, rest', front, front'⟩ : ∃ d rest rest', passed ++ c :: tail = d :: rest ∧
      passed ++ c :: tail' = d :: rest' := by
    cases passed with
    | nil => exact ⟨c, tail, tail', rfl, rfl⟩
    | cons d passed => exact ⟨d, _, _, rfl, rfl⟩
  rw [front] at whole
  rw [front'] at same
  rw [List.append_assoc line.passed passed, front', line_front free start whole.symm, same, ← whole]
  rfl

/-- A round reads the lexeme that is there, where the text is the same up to it. -/
theorem round_lexeme_front (h : s.approach.rest = c :: tail) (noEscape : c ≠ '\\')
    (free : '\r' ∉ s.rest) (free' : '\r' ∉ tail') :
    ({ s with rest := s.approach.trivia ++ c :: tail' } : Scanner).round =
      ⟨s.approach.blocks ++ [⟨(lexeme c tail').kind, (c :: tail').take (lexeme c tail').length,
          s.approach.trivia, s.approach.start⟩],
        ⟨(c :: tail').drop (lexeme c tail').length,
          s.approach.start.advancedBy ((c :: tail').take (lexeme c tail').length),
          s.approach.margins, depthAfter (lexeme c tail').kind s.depth,
          (lexeme c tail').kind = .newline⟩, false⟩ := by
  have approach := approach_front h noEscape free free'
  have round := round_lexeme (congrArg Approach.rest approach)
  rwa [approach] at round

/-- A name that is cut off is a name. -/
theorem lexeme_name_front (name : (lexeme c tail).kind = .name) (some : x ≠ [])
    (front : x <+: (c :: tail).take (lexeme c tail).length) :
    ∃ x', x = c :: x' ∧ lexeme c x' = ⟨.name, x.length⟩ := by
  obtain ⟨d, x', rfl⟩ := List.exists_cons_of_ne_nil some
  obtain ⟨rfl, more, rfl⟩ := List.cons_prefix_cons.1 (front.trans (List.take_prefix _ _))
  obtain ⟨start, length⟩ := lexeme_name name
  have word : (d :: (x' ++ more)).take (lexeme d (x' ++ more)).length =
      (d :: (x' ++ more)).takeWhile isNameContinue := by
    rw [length]
    exact (List.prefix_iff_eq_take.1 (List.takeWhile_prefix _)).symm
  have own : SpellsName (d :: x') :=
    ⟨⟨d, x', rfl, start⟩, fun e he => List.mem_takeWhile_imp (word ▸ front.subset he)⟩
  exact ⟨x', rfl, lexeme_word (z := []) own (List.append_nil _) (by simp)⟩

/-- A lexeme, or the front of a name, is the lexeme at the end of a text that is cut off behind it.
-/
theorem lexeme_cut (error : (lexeme c tail).kind ≠ .error) (noReturn : c ≠ '\r') (some : x ≠ [])
    (front : x <+: (c :: tail).take (lexeme c tail).length)
    (ends : x = (c :: tail).take (lexeme c tail).length ∨ (lexeme c tail).kind = .name) :
    ∃ x', x = c :: x' ∧ lexeme c x' = ⟨(lexeme c tail).kind, x.length⟩ := by
  rcases ends with all | name
  · obtain ⟨x', -, whole, same, -⟩ := lexeme_upTo error noReturn (List.nil_append _).symm
    rw [List.append_nil, ← all] at whole
    refine ⟨x', whole, ?_⟩
    rw [same, all, List.length_take, List.length_cons,
      Nat.min_eq_left (lexeme_length_le error noReturn)]
  · obtain ⟨x', whole, read⟩ := lexeme_name_front name some front
    exact ⟨x', whole, read.trans (by rw [name])⟩

/-- Cut off somewhere behind the token that it reads, a round reads the same. -/
theorem round_upTo {behind more : Text} (goesOn : s.round.ended = false) (free : '\r' ∉ s.rest)
    (read : ∀ t ∈ s.round.tokens, t.kind ≠ .error) (left : s.round.next.rest = behind ++ more) :
    ({ s with rest := Token.concat s.round.tokens ++ behind } : Scanner).round =
      ⟨s.round.tokens, { s.round.next with rest := behind }, false⟩ := by
  cases hrest : s.approach.rest with
  | nil =>
    rw [round_last hrest] at goesOn
    cases goesOn
  | cons c tail =>
    have text := s.approach_text
    rw [hrest] at text
    obtain ⟨_, -, blocks⟩ := s.approach_isLayout
    rw [round_lexeme hrest] at read left ⊢
    rw [Token.concat_append, Token.concat_layout fun t ht => (blocks t ht).1]
    have error : (lexeme c tail).kind ≠ .error :=
      read _ (List.mem_append_right _ List.mem_cons_self)
    have noReturn : '\r' ∉ c :: tail := fun h => free (text ▸ List.mem_append_right _ h)
    obtain ⟨tail', rfl, here, same, value, next⟩ := lexeme_upTo error
      (fun h => noReturn (h ▸ List.mem_cons_self)) left
    have round := round_lexeme_front hrest (fun h => error (h ▸ lexeme_backslash _)) free
      fun h => noReturn (List.mem_cons_of_mem _ (List.mem_append_left more h))
    rw [same, value, next, ← here] at round
    simpa [Token.concat] using round

/-- Cut off in the token that it reads, a round reads the front of it. -/
theorem round_cut {blocks : List Token} (goesOn : s.round.ended = false)
    (tokens : s.round.tokens = blocks ++ [u]) (free : '\r' ∉ s.rest) (inner : u.IsInner)
    (some : x ≠ []) (front : x <+: u.value) (ends : x = u.value ∨ u.kind = .name) :
    ∃ next, ({ s with rest := Token.concat blocks ++ u.trivia ++ x } : Scanner).round =
      ⟨blocks ++ [{ u with value := x }], next, false⟩ ∧ next.rest = [] := by
  cases hrest : s.approach.rest with
  | nil =>
    rw [round_last hrest] at goesOn
    cases goesOn
  | cons c tail =>
    have text := s.approach_text
    rw [hrest] at text
    obtain ⟨_, -, layout⟩ := s.approach_isLayout
    rw [round_lexeme hrest] at tokens
    obtain ⟨rfl, last⟩ := List.append_inj' tokens rfl
    obtain rfl := List.singleton_inj.1 last
    have noReturn : '\r' ∉ c :: tail := fun h => free (text ▸ List.mem_append_right _ h)
    have whole := front.trans (List.take_prefix _ _)
    obtain ⟨x', rfl, read⟩ := lexeme_cut inner.kind.2 (fun h => noReturn (h ▸ List.mem_cons_self))
      some front ends
    have round := round_lexeme_front hrest (inner.first rfl).2 free
      fun h => noReturn (whole.subset (List.mem_cons_of_mem _ h))
    rw [read, List.take_length, List.drop_length] at round
    rw [Token.concat_layout fun t ht => (layout t ht).1, List.nil_append]
    exact ⟨_, round, rfl⟩

/-- Where no lexeme is left there are block tokens and the end marker. -/
theorem tokens_out {n : Nat} (out : s.approach.rest = []) :
    ∀ t ∈ s.tokens n, t.IsLayout ∨ t.kind = .endMarker := by
  have round := round_last out
  cases n with
  | zero => simp [tokens]
  | succ n =>
    rw [tokens, if_pos (by rw [round]), round]
    intro t ht
    rcases List.mem_append.1 ht with ht | ht
    · exact .inl (approach_closing ht).1
    · rw [List.mem_singleton.1 ht]
      exact .inr rfl

theorem approach_nil (out : s.rest = []) : s.approach.rest = [] := by
  have text := s.approach_text
  rw [out] at text
  exact (List.append_eq_nil_iff.1 text.symm).2

/-- A text cut off in a token has the tokens before it, then the front of this one, and no more but
block tokens and the end marker. -/
theorem tokens_cut {n m : Nat} (h : s.tokens n = A ++ u :: C) (inner : u.IsInner)
    (read : ∀ t ∈ A, t.kind ≠ .error) (free : '\r' ∉ s.rest)
    (whole : s.rest = Token.concat A ++ u.trivia ++ x ++ z) (some : x ≠ [])
    (front : x <+: u.value) (ends : x = u.value ∨ u.kind = .name)
    (room : (Token.concat A ++ u.trivia ++ x).length < m) :
    ∃ closing, ({ s with rest := Token.concat A ++ u.trivia ++ x } : Scanner).tokens m =
        A ++ { u with value := x } :: closing ∧
      ∀ t ∈ closing, t.IsLayout ∨ t.kind = .endMarker := by
  induction n generalizing s A m with
  | zero => simp [tokens] at h
  | succ n ih =>
    obtain ⟨m, rfl⟩ : ∃ k, m = k + 1 := ⟨m - 1, by omega⟩
    rw [tokens] at h
    rcases s.round_cases with ⟨blocks, start, layout, ended, -, round⟩ |
      ⟨blocks, t, layout, goesOn, round, text, value, -⟩
    · rw [if_pos ended, round] at h
      have member : u ∈ blocks ++ [⟨.endMarker, [], s.rest, start⟩] := by simp [h]
      refine absurd ?_ inner.not_closing
      rcases List.mem_append.1 member with member | member
      · exact .inl (layout u member)
      · rw [List.mem_singleton.1 member]
        exact .inr rfl
    · rw [if_neg (by rw [goesOn]; exact Bool.false_ne_true), round, List.append_assoc,
        List.singleton_append] at h
      rcases append_eq_append_cons h with ⟨others, block⟩ | ⟨others, rfl, behind⟩
      · exact absurd (layout u (by simp [block])) inner.not_layout
      cases others with
      | nil =>
        -- this round reads the token
        obtain ⟨rfl, -⟩ := List.cons.inj behind
        rw [List.append_nil] at read whole room ⊢
        obtain ⟨next, cut, out⟩ := round_cut goesOn round free inner some front ends
        rw [tokens, cut, if_neg Bool.false_ne_true, List.append_assoc]
        exact ⟨_, rfl, tokens_out (approach_nil out)⟩
      | cons a others =>
        -- this round reads one of the tokens before
        obtain ⟨rfl, more⟩ := List.cons.inj behind
        have first : blocks ++ t :: others = s.round.tokens ++ others := by
          rw [round, List.append_assoc, List.singleton_append]
        rw [first] at read whole room ⊢
        have spells : Token.concat s.round.tokens = t.trivia ++ t.value := by
          rw [round, Token.concat_append, Token.concat_layout layout, List.nil_append]
          exact List.append_nil _
        have upTo : Token.concat (s.round.tokens ++ others) ++ u.trivia ++ x =
            Token.concat s.round.tokens ++ (Token.concat others ++ u.trivia ++ x) := by
          simp only [Token.concat_append, List.append_assoc]
        rw [upTo] at whole room ⊢
        have left : s.round.next.rest = Token.concat others ++ u.trivia ++ x ++ z := by
          rw [text, spells, List.append_assoc _ _ z] at whole
          exact List.append_cancel_left whole
        have room' : (Token.concat others ++ u.trivia ++ x).length < m := by
          have read : Token.concat s.round.tokens ≠ [] := by simp [spells, value]
          have := List.length_pos_iff.2 read
          rw [List.length_append] at room
          omega
        obtain ⟨closing, rest, ends⟩ := ih more (fun v hv => read v (List.mem_append_right _ hv))
          (fun h => free (text ▸ List.mem_append_right _ h)) left room'
        have cut := round_upTo goesOn free (fun v hv => read v (List.mem_append_left _ hv)) left
        rw [tokens, cut, if_neg Bool.false_ne_true]
        exact ⟨closing, by rw [List.append_assoc s.round.tokens]; exact congrArg _ rest, ends⟩

end Scanner

/-! ## Texts that are cut off -/

variable {front text text' x x' : Text} {u u' : Token} {A A' : List Token}

/-- The front of a text ends in this token, which has these before it, and has so much of it: the
whole of the token, or the front of a name. -/
structure CutIn (front text : Text) (A : List Token) (u : Token) (x : Text) : Prop where
  free : '\r' ∉ text
  tokens : ∃ C, tokenize text = A ++ u :: C
  inner : u.IsInner
  read : ∀ t ∈ A, t.kind ≠ .error
  front_eq : front = Token.concat A ++ u.trivia ++ x
  whole : front <+: text
  some : x ≠ []
  part : x <+: u.value
  ends : x = u.value ∨ u.kind = .name

/-- A front that ends behind the start of a token, and no later than this one, ends in it. -/
theorem cutIn_of_lt {C : List Token} (free : '\r' ∉ text) (tokens : tokenize text = A ++ u :: C)
    (inner : u.IsInner) (read : ∀ t ∈ A, t.kind ≠ .error) (whole : front <+: text)
    (after : u.start < Position.start.advancedBy front)
    (upTo : Position.start.advancedBy front ≤ u.stop)
    (ends : Position.start.advancedBy front = u.stop ∨ u.kind = .name) :
    ∃ x, CutIn front text A u x := by
  have start : u.start = Position.start.advancedBy (Token.concat A ++ u.trivia) :=
    (tokens ▸ tokenize_placed text).start_eq inner.not_layout
  have stop : u.stop = Position.start.advancedBy (Token.concat A ++ u.trivia ++ u.value) := by
    rw [Position.advancedBy_append, ← start, Token.stop]
  have all : Token.concat A ++ u.trivia ++ u.value <+: text := by
    refine ⟨Token.concat C, ?_⟩
    rw [← concat_tokenize text, tokens, Token.concat_append, Token.concat_cons]
    simp only [List.append_assoc]
  have before := (List.prefix_append (Token.concat A ++ u.trivia) u.value).trans all
  -- the front goes on behind the trivia of the token, and no further than the token
  obtain ⟨x, rfl⟩ := Position.prefix_of_le before whole (start ▸ Position.le_of_lt after)
  have part := (List.prefix_append_right_inj _).1
    (Position.prefix_of_le whole all (stop ▸ upTo))
  refine ⟨x, free, ⟨C, tokens⟩, inner, read, rfl, whole, ?_, part, ends.imp_left fun same => ?_⟩
  · rintro rfl
    rw [List.append_nil, ← start] at after
    simp [Position.lt_def] at after
  · have back := Position.prefix_of_le all whole (p := .start) (by
      rw [← stop, ← same]
      exact Position.le_refl _)
    exact part.eq_of_length (Nat.le_antisymm part.length_le
      ((List.prefix_append_right_inj _).1 back).length_le)

/-- A text cut off in a token has the tokens before it, then the front of this one, and no more but
block tokens and the end marker. -/
theorem tokenize_cut (h : CutIn front text A u x) :
    ∃ closing, tokenize front = A ++ { u with value := x } :: closing ∧
      ∀ t ∈ closing, t.IsLayout ∨ t.kind = .endMarker := by
  obtain ⟨C, tokens⟩ := h.tokens
  obtain ⟨z, whole⟩ := h.whole
  rw [h.front_eq] at whole ⊢
  exact Scanner.tokens_cut (s := .ofText text) tokens h.inner h.read h.free whole.symm h.some h.part
    h.ends (Nat.lt_succ_self _)

/-- The last of some elements that has no property of those behind it. -/
theorem last_unique {α : Type} {P : α → Prop} {as as' bs bs' : List α} {a a' : α} (ha : ¬ P a)
    (ha' : ¬ P a') (hbs : ∀ b ∈ bs, P b) (hbs' : ∀ b ∈ bs', P b)
    (h : as ++ a :: bs = as' ++ a' :: bs') : as = as' ∧ a = a' := by
  rcases append_eq_append_cons h with ⟨inner, rfl⟩ | ⟨inner, rfl, behind⟩
  · rw [List.append_assoc, List.append_cancel_left_eq, List.cons_append] at h
    obtain ⟨-, rfl⟩ := List.cons.inj h
    exact absurd (hbs' a (by simp)) ha
  · cases inner with
    | nil => exact ⟨(List.append_nil _).symm, (List.cons.inj behind).1⟩
    | cons b inner =>
      obtain ⟨-, rfl⟩ := List.cons.inj behind
      exact absurd (hbs a' (by simp)) ha'

/-- Two texts that begin alike have the same tokens up to the one in which they part, and it starts
in the same place. -/
theorem tokenize_common (h : CutIn front text A u x) (h' : CutIn front text' A' u' x') :
    A = A' ∧ u.start = u'.start := by
  obtain ⟨closing, tokens, closes⟩ := tokenize_cut h
  obtain ⟨closing', tokens', closes'⟩ := tokenize_cut h'
  have own : Token.IsInner { u with value := x } := h.inner
  have own' : Token.IsInner { u' with value := x' } := h'.inner
  obtain ⟨same, last⟩ := last_unique (P := fun t => t.IsLayout ∨ t.kind = .endMarker)
    own.not_closing own'.not_closing closes closes' (tokens.symm.trans tokens')
  exact ⟨same, (Token.mk.inj last).2.2.2⟩

end Caret

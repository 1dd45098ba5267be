import Caret.Token.Scanner
/-!
# What the scanner makes of a source

A round goes up to the next lexeme, opening and closing blocks on the way, and then reads it, or
finds the end of the source. So it gives block tokens, which have no text, and then one token that
has some, or the end marker (`round_cases`). Every round but the last shortens what is left to read,
and the number of rounds that `tokenize` allows is never used up.

Results:
* `Token.IsLayout`: a token that opens or closes a block and has neither value nor trivia.
* `depthBehind`: how many brackets are open behind some tokens.
* `Scanner.gap_step`: one character of a gap.
* `Scanner.lexeme_cases`: the readers that a lexeme can come from.
* `Scanner.round_last`, `Scanner.round_lexeme`: a round, by what it finds where it gets to.
* `Scanner.round_cases`: the two things that a round can do.
* `TokenStream.Drains`: pulling tokens until none comes gives these tokens.
* `TokenStream.drains_iff`: pulling gives the tokens of `tokenize`, and nothing else.
* `tokenize_layout`: block tokens have no text.
* `tokenize_eq`: they are tokens before the end, none of them the end marker, and the end marker.
* `concat_tokenize`: written one after the other they are the source.
-/
namespace Caret

/-- The token opens or closes a block; it has no text of its own. -/
def Token.IsLayout (t : Token) : Prop :=
  t = Scanner.layoutToken .indent t.start ∨ t = Scanner.layoutToken .dedent t.start

theorem Token.IsLayout.value {t : Token} (h : t.IsLayout) : t.value = [] := by
  rcases h with h | h <;> rw [h] <;> rfl

theorem Token.IsLayout.trivia {t : Token} (h : t.IsLayout) : t.trivia = [] := by
  rcases h with h | h <;> rw [h] <;> rfl

theorem Token.IsLayout.kind {t : Token} (h : t.IsLayout) : t.kind = .indent ∨ t.kind = .dedent := by
  rcases h with h | h
  · left; rw [h]; rfl
  · right; rw [h]; rfl

@[simp] theorem Token.concat_append (ts us : List Token) :
    Token.concat (ts ++ us) = Token.concat ts ++ Token.concat us := by
  simp [Token.concat]

theorem Token.concat_cons (t : Token) (ts : List Token) :
    Token.concat (t :: ts) = t.trivia ++ t.value ++ Token.concat ts := rfl

theorem Token.concat_layout {ts : List Token} (h : ∀ t ∈ ts, t.IsLayout) :
    Token.concat ts = [] := by
  simp only [Token.concat, List.flatMap_eq_nil_iff, List.append_eq_nil_iff]
  exact fun t ht => ⟨(h t ht).trivia, (h t ht).value⟩

/-- How many brackets are open behind tokens, so many being open before. -/
def depthBehind (depth : Nat) (tokens : List Token) : Nat :=
  tokens.foldl (fun depth t => Scanner.depthAfter t.kind depth) depth

namespace Scanner

/-! ## Gaps -/

variable {c : Char} {rest : Text}

/-- Whether a character between two lexemes is passed over, and whether the comment that it is in
goes on behind it. -/
def passes (inBrackets inComment : Bool) (c : Char) : Option Bool :=
  if c = '\n' then if inBrackets then some false else none
  else if inComment then some true
  else if c = '#' then some true
  else if c = ' ' ∨ c = '\t' ∨ c = '\x0c' ∨ c = '\r' then some false
  else none

/-- One character of a margin, which begins no line break of two characters. -/
theorem margin_step (noReturn : c ≠ '\r') (inComment : Bool) (width : Nat) (rest : Text) :
    margin inComment width (c :: rest) =
      if c = '\n' then (margin false 0 rest).after c
      else if inComment then (margin true width rest).after c
      else if c = ' ' then (margin false (width + 1) rest).after c
      else if c = '\t' then (margin false ((width / tabSize + 1) * tabSize) rest).after c
      else if c = '\x0c' then (margin false 0 rest).after c
      else if c = '#' then (margin true width rest).after c
      else ⟨[], width, c :: rest⟩ := by
  rw [margin]
  rintro more rfl
  exact absurd rfl noReturn

/-- One character of a gap, which neither begins a line break of two characters nor escapes one. -/
theorem gap_step {inBrackets inComment : Bool} (noReturn : c ≠ '\r')
    (alone : inComment = false → c = '\\' → ∀ d ∈ rest.head?, d ≠ '\n' ∧ d ≠ '\r') :
    gap inBrackets inComment (c :: rest) = match passes inBrackets inComment c with
      | some inComment => (c :: (gap inBrackets inComment rest).1,
          (gap inBrackets inComment rest).2)
      | none => ([], c :: rest) := by
  rw [gap]
  · rfl
  · rintro more rfl
    exact absurd rfl noReturn
  · rintro more outside rfl rfl
    exact absurd rfl (alone outside rfl _ rfl).2
  · rintro more outside rfl rfl
    exact absurd rfl (alone outside rfl _ rfl).2
  · rintro more outside rfl rfl
    exact absurd rfl (alone outside rfl _ rfl).1

/-! ## Lexemes -/

theorem literal_kind (marks : Nat) (quote : Char) (text : Text) :
    (literal marks quote text).kind = .string ∨ (literal marks quote text).kind = .error := by
  dsimp only [literal]
  split <;> simp

/-- A word is a name, or the prefix of a string. -/
theorem wordLexeme_cases (text : Text) :
    wordLexeme text = ⟨.name, (text.takeWhile isNameContinue).length⟩ ∨
      ∃ marks quote tail, wordLexeme text = literal marks quote tail := by
  unfold wordLexeme
  dsimp only
  split
  · split
    · exact .inr ⟨_, _, _, rfl⟩
    · exact .inl rfl
  · exact .inl rfl

/-- The readers that a lexeme can come from. -/
theorem lexeme_cases (c : Char) (rest : Text) :
    ((c = '\n' ∨ c = '\r') ∧ (lexeme c rest).kind = .newline) ∨ (lexeme c rest).kind = .number ∨
      (∃ marks quote tail, lexeme c rest = literal marks quote tail) ∨
      (isNameStart c = true ∧ lexeme c rest = wordLexeme (c :: rest)) ∨
      lexeme c rest = operatorLexeme (c :: rest) := by
  unfold lexeme
  split
  · next line => exact .inl ⟨line, rfl⟩
  split
  · exact .inr (.inr (.inl ⟨_, _, _, rfl⟩))
  split
  · exact .inr (.inl rfl)
  split
  · next start => exact .inr (.inr (.inr (.inl ⟨start, rfl⟩)))
  · exact .inr (.inr (.inr (.inr rfl)))

/-- The types that a lexeme can have; the end of a logical line has a line break in front. -/
theorem lexeme_kinds (c : Char) (rest : Text) :
    (lexeme c rest).kind ∈ [.number, .string, .name, .error] ∨ (∃ o, (lexeme c rest).kind = .op o) ∨
      ((lexeme c rest).kind = .newline ∧ (c = '\n' ∨ c = '\r')) := by
  have string (marks : Nat) (quote : Char) (text : Text) :
      (literal marks quote text).kind ∈ [TokenKind.number, .string, .name, .error] := by
    rcases literal_kind marks quote text with kind | kind <;> simp [kind]
  rcases lexeme_cases c rest with ⟨line, kind⟩ | kind | ⟨_, _, _, read⟩ | ⟨-, read⟩ | read
  · exact .inr (.inr ⟨kind, line⟩)
  · exact .inl (by simp [kind])
  · exact .inl (read ▸ string _ _ _)
  · rcases wordLexeme_cases (c :: rest) with word | ⟨_, _, _, word⟩
    · exact .inl (by simp [read, word])
    · exact .inl (read ▸ word ▸ string _ _ _)
  · rw [read]
    unfold operatorLexeme
    split
    · exact .inr (.inl ⟨_, rfl⟩)
    · exact .inl (by simp)

/-- A lexeme is a token with text: it neither opens nor closes a block nor ends the source. -/
theorem lexeme_kind (c : Char) (rest : Text) :
    (lexeme c rest).kind ≠ .indent ∧ (lexeme c rest).kind ≠ .dedent ∧
      (lexeme c rest).kind ≠ .endMarker := by
  rcases lexeme_kinds c rest with kind | ⟨o, kind⟩ | ⟨kind, -⟩
  · simp only [List.mem_cons, List.not_mem_nil, or_false] at kind
    rcases kind with kind | kind | kind | kind <;> simp [kind]
  · simp [kind]
  · simp [kind]

/-! ## One round -/

theorem layout_isLayout (margins : List Nat) (width : Nat) (at_ : Position) :
    ∀ t ∈ (layout margins width at_).1, t.IsLayout ∧ t.start = at_ := by
  intro t ht
  unfold layout at ht
  split at ht
  · rw [List.mem_singleton.1 ht]; exact ⟨.inl rfl, rfl⟩
  · rw [List.eq_of_mem_replicate ht]; exact ⟨.inr rfl, rfl⟩

/-- What a round does before it reads a lexeme. -/
structure Approach where
  /-- The block tokens of the line start. -/
  blocks : List Token
  /-- The margins of the blocks that are open behind them. -/
  margins : List Nat
  /-- Blank lines, the margin and the gap before the lexeme. -/
  trivia : Text
  rest : Text
  /-- Position of `rest`. -/
  start : Position

/-- Go up to the next lexeme or to the end of the source. -/
def approach (s : Scanner) : Approach :=
  let line : Margin := if s.atLineStart then margin false 0 s.rest else ⟨[], 0, s.rest⟩
  let lineAt := s.position.advancedBy line.passed
  let blocks :=
    if s.atLineStart && !line.rest.isEmpty then layout s.margins line.width lineAt
    else ([], s.margins)
  let between := gap (0 < s.depth) false line.rest
  ⟨blocks.1, blocks.2, line.passed ++ between.1, between.2, lineAt.advancedBy between.1⟩

/-- A round at the end of the source closes all blocks and gives the end marker. -/
theorem round_last {s : Scanner} (h : s.approach.rest = []) :
    s.round = ⟨s.approach.blocks ++
        List.replicate (s.approach.margins.length - 1) (layoutToken .dedent s.approach.start) ++
        [⟨.endMarker, [], s.approach.trivia, s.approach.start⟩],
      ⟨[], s.approach.start, s.approach.margins.drop (s.approach.margins.length - 1), s.depth,
        s.atLineStart⟩, true⟩ := by
  unfold approach at h ⊢
  unfold round
  dsimp only at h ⊢
  rw [h]

/-- A round before the end of the source reads a lexeme. -/
theorem round_lexeme {s : Scanner} (h : s.approach.rest = c :: rest) :
    s.round = ⟨s.approach.blocks ++ [⟨(lexeme c rest).kind,
        (c :: rest).take (lexeme c rest).length, s.approach.trivia, s.approach.start⟩],
      ⟨(c :: rest).drop (lexeme c rest).length,
        s.approach.start.advancedBy ((c :: rest).take (lexeme c rest).length),
        s.approach.margins, depthAfter (lexeme c rest).kind s.depth,
        (lexeme c rest).kind = .newline⟩, false⟩ := by
  unfold approach at h ⊢
  unfold round
  dsimp only at h ⊢
  rw [h]

/-- At a line start blank lines and the margin are skipped, then the gap before the lexeme. -/
theorem approach_gap (s : Scanner) : ∃ skipped line passed, s.rest = skipped ++ line ∧
    (s.atLineStart = false → skipped = []) ∧
    gap (0 < s.depth) false line = (passed, s.approach.rest) ∧
    s.approach.trivia = skipped ++ passed := by
  unfold approach
  dsimp only
  split
  · next start =>
    refine ⟨_, _, _, (margin_append false 0 s.rest).symm, fun inside => ?_, rfl, rfl⟩
    rw [start] at inside
    cases inside
  · exact ⟨[], s.rest, _, rfl, fun _ => rfl, rfl, rfl⟩

/-- What is passed over and what is left make up the text. -/
theorem approach_text (s : Scanner) : s.rest = s.approach.trivia ++ s.approach.rest := by
  obtain ⟨skipped, line, passed, whole, -, between, trivia⟩ := s.approach_gap
  have parts := gap_append (0 < s.depth) false line
  rw [between] at parts
  rw [whole, trivia, ← parts, List.append_assoc]

theorem approach_start (s : Scanner) :
    s.approach.start = s.position.advancedBy s.approach.trivia :=
  (Position.advancedBy_append ..).symm

/-- Blocks open and close at a line start only, by the margin of the line. -/
theorem approach_blocks (s : Scanner) :
    (s.approach.blocks = [] ∧ s.approach.margins = s.margins) ∨
      (s.atLineStart = true ∧ ∃ width skipped, skipped <+: s.approach.trivia ∧
        s.approach.blocks = (layout s.margins width (s.position.advancedBy skipped)).1 ∧
        s.approach.margins = (layout s.margins width (s.position.advancedBy skipped)).2) := by
  unfold approach
  dsimp only
  generalize (if s.atLineStart then margin false 0 s.rest else ⟨[], 0, s.rest⟩) = line
  split
  · next start =>
    rw [Bool.and_eq_true] at start
    exact .inr ⟨start.1, line.width, line.passed, List.prefix_append _ _, rfl, rfl⟩
  · exact .inl ⟨rfl, rfl⟩

/-- The block tokens of a line start stand at one place in the trivia of the lexeme. -/
theorem approach_isLayout (s : Scanner) : ∃ skipped, skipped <+: s.approach.trivia ∧
    ∀ t ∈ s.approach.blocks, t.IsLayout ∧ t.start = s.position.advancedBy skipped := by
  rcases s.approach_blocks with ⟨none, -⟩ | ⟨-, width, skipped, front, blocks, -⟩
  · exact ⟨[], List.nil_prefix, by simp [none]⟩
  · exact ⟨skipped, front, blocks ▸ layout_isLayout _ _ _⟩

/-- At the end of the source there are block tokens of the line start and of what is closed. -/
theorem approach_closing {s : Scanner} {t : Token} (h : t ∈ s.approach.blocks ++
    List.replicate (s.approach.margins.length - 1) (layoutToken .dedent s.approach.start)) :
    t.IsLayout ∧ s.position ≤ t.start := by
  obtain ⟨skipped, -, blocks⟩ := s.approach_isLayout
  rcases List.mem_append.1 h with h | h
  · obtain ⟨layout, start⟩ := blocks t h
    exact ⟨layout, start ▸ Position.le_advancedBy _ _⟩
  · rw [List.eq_of_mem_replicate h]
    exact ⟨.inr rfl, s.approach_start ▸ Position.le_advancedBy _ _⟩

/-- A round at the end of the source: block tokens and the end marker, which has all that is left
as its trivia. -/
def EndsRound (s : Scanner) : Prop :=
  ∃ layout start, (∀ t ∈ layout, t.IsLayout) ∧ s.round.ended = true ∧ s.round.next.rest = [] ∧
    s.round.tokens = layout ++ [⟨.endMarker, [], s.rest, start⟩]

/-- A round before the end: block tokens and a token with a value. -/
def ReadsRound (s : Scanner) : Prop :=
  ∃ layout t, (∀ t ∈ layout, t.IsLayout) ∧ s.round.ended = false ∧
    s.round.tokens = layout ++ [t] ∧ s.rest = t.trivia ++ t.value ++ s.round.next.rest ∧
    t.value ≠ [] ∧ t.kind ≠ .indent ∧ t.kind ≠ .dedent ∧ t.kind ≠ .endMarker

/-- What a round can do. -/
theorem round_cases (s : Scanner) : s.EndsRound ∨ s.ReadsRound := by
  obtain ⟨_, -, blocks⟩ := s.approach_isLayout
  have text := s.approach_text
  cases hrest : s.approach.rest with
  | nil =>
    left
    refine ⟨s.approach.blocks ++ List.replicate (s.approach.margins.length - 1)
      (layoutToken .dedent s.approach.start), s.approach.start,
      fun t ht => (approach_closing ht).1, ?_⟩
    rw [hrest, List.append_nil] at text
    rw [round_last hrest, text]
    exact ⟨rfl, rfl, rfl⟩
  | cons c rest =>
    right
    have long : 0 < (lexeme c rest).length := by
      obtain ⟨_, line, passed, -, -, between, -⟩ := s.approach_gap
      exact lexeme_length_pos fun hc => gap_return (by rw [between, hrest, hc])
    rw [hrest] at text
    refine ⟨s.approach.blocks, ⟨(lexeme c rest).kind, (c :: rest).take (lexeme c rest).length,
      s.approach.trivia, s.approach.start⟩, fun t ht => (blocks t ht).1, ?_⟩
    rw [round_lexeme hrest]
    refine ⟨rfl, rfl, ?_, ?_, lexeme_kind c rest⟩
    · rw [text, List.append_assoc, List.take_append_drop]
    · obtain ⟨n, hn⟩ : ∃ n, (lexeme c rest).length = n + 1 := ⟨_, (Nat.sub_add_cancel long).symm⟩
      rw [hn]; simp

/-! ## All rounds -/

/-- Before the end a round takes a character. -/
theorem round_shortens {s : Scanner} (h : s.round.ended = false) :
    s.round.next.rest.length < s.rest.length := by
  rcases s.round_cases with ⟨_, _, _, ended, _⟩ | ⟨_, t, _, _, _, rest, value, _⟩
  · rw [h] at ended; cases ended
  · have := List.length_pos_iff.2 value
    rw [rest]; simp only [List.length_append]; omega

theorem round_tokens_ne_nil (s : Scanner) : s.round.tokens ≠ [] := by
  rcases s.round_cases with ⟨_, _, _, _, _, tokens⟩ | ⟨_, _, _, _, tokens, _⟩ <;>
    (rw [tokens]; simp)

/-- The tokens of a round come first. -/
theorem round_front (s : Scanner) (n : Nat) : s.round.tokens <+: s.tokens (n + 1) := by
  rw [tokens]
  split
  · exact List.prefix_rfl
  · exact List.prefix_append ..

/-- With rounds enough for what is left to read, the tokens come before the end marker, which is
the last one, and spell what is left to read. -/
theorem tokens_eq {n : Nat} {s : Scanner} (h : s.rest.length < n) :
    ∃ body last, s.tokens n = body ++ [last] ∧ last.kind = .endMarker ∧
      (∀ t ∈ body, t.kind ≠ .endMarker) ∧ Token.concat (body ++ [last]) = s.rest := by
  induction n generalizing s with
  | zero => omega
  | succ n ih =>
    have layout {t : Token} (ht : t.IsLayout) : t.kind ≠ .endMarker := by
      rcases ht.kind with h | h <;> rw [h] <;> decide
    rw [tokens]
    rcases s.round_cases with ⟨blocks, start, hb, ended, _, tokens⟩ |
      ⟨blocks, t, hb, ended, tokens, rest, _, _, _, kind⟩
    · refine ⟨blocks, _, by rw [if_pos ended, tokens], rfl, fun t ht => layout (hb t ht), ?_⟩
      rw [Token.concat_append, Token.concat_layout hb]
      simp [Token.concat]
    · have shorter := round_shortens ended
      obtain ⟨body, last, more, hlast, hbody, spells⟩ := ih (s := s.round.next) (by omega)
      refine ⟨blocks ++ [t] ++ body, last, ?_, hlast, ?_, ?_⟩
      · rw [if_neg (by simp [ended]), tokens, more]
        simp only [List.append_assoc]
      · intro u hu
        simp only [List.append_assoc, List.mem_append, List.mem_singleton] at hu
        rcases hu with hu | rfl | hu
        · exact layout (hb u hu)
        · exact kind
        · exact hbody u hu
      · rw [List.append_assoc, Token.concat_append, spells, Token.concat_append,
          Token.concat_layout hb, rest]
        simp [Token.concat]

/-- Block tokens have no text. -/
theorem tokens_layout {n : Nat} {s : Scanner} {t : Token} (h : t ∈ s.tokens n)
    (kind : t.kind = .indent ∨ t.kind = .dedent) : t.IsLayout := by
  induction n generalizing s with
  | zero => cases h
  | succ n ih =>
    have round (h : t ∈ s.round.tokens) : t.IsLayout := by
      rcases s.round_cases with ⟨blocks, start, hb, -, -, tokens⟩ |
        ⟨blocks, u, hb, -, tokens, -, -, noIndent, noDedent, -⟩ <;> rw [tokens] at h <;>
        rcases List.mem_append.1 h with h | h
      · exact hb t h
      · rw [List.mem_singleton.1 h] at kind
        rcases kind with kind | kind <;> cases kind
      · exact hb t h
      · rw [List.mem_singleton.1 h] at kind
        rcases kind with kind | kind
        · exact absurd kind noIndent
        · exact absurd kind noDedent
    rw [tokens] at h
    split at h
    · exact round h
    · rcases List.mem_append.1 h with h | h
      · exact round h
      · exact ih h

end Scanner

/-- The tokens of a source: tokens before the end, none of them the end marker, and the end
marker. -/
theorem tokenize_eq (text : Text) :
    ∃ body last, tokenize text = body ++ [last] ∧ last.kind = .endMarker ∧
      ∀ t ∈ body, t.kind ≠ .endMarker := by
  obtain ⟨body, last, tokens, hlast, hbody, -⟩ :=
    Scanner.tokens_eq (s := Scanner.ofText text) (Nat.lt_succ_self _)
  exact ⟨body, last, tokens, hlast, hbody⟩

/-- A token that another one comes after is not the end marker. -/
theorem tokenize_before {text : Text} {t : Token} {before after : List Token}
    (tokens : tokenize text = before ++ t :: after) : ∀ u ∈ before, u.kind ≠ .endMarker := by
  obtain ⟨body, last, whole, -, inner⟩ := tokenize_eq text
  have front : body = before ++ (t :: after).dropLast := by
    rw [← List.dropLast_append_of_ne_nil (List.cons_ne_nil t after), ← tokens, whole,
      List.dropLast_concat]
  intro u hu
  exact inner u (by rw [front]; exact List.mem_append_left _ hu)

/-- The block tokens of a source have no text. -/
theorem tokenize_layout {text : Text} {t : Token} (h : t ∈ tokenize text)
    (kind : t.kind = .indent ∨ t.kind = .dedent) : t.IsLayout :=
  Scanner.tokens_layout h kind

/-- Nothing of a source is lost. -/
theorem concat_tokenize (text : Text) : Token.concat (tokenize text) = text := by
  obtain ⟨body, last, tokens, -, -, spells⟩ :=
    Scanner.tokens_eq (s := Scanner.ofText text) (Nat.lt_succ_self _)
  rw [tokenize]
  exact (congrArg Token.concat tokens).trans spells

namespace TokenStream

/-! ## Pulling tokens -/

/-- Pulling tokens until none comes gives these tokens. -/
inductive Drains : TokenStream → List Token → Prop
  | done {s : TokenStream} (h : s.next? = none) : Drains s []
  | pull {s s' : TokenStream} {t : Token} {rest : List Token} (h : s.next? = some (t, s'))
      (h' : Drains s' rest) : Drains s (t :: rest)

/-- A stream can be drained in one way only. -/
theorem Drains.unique {s : TokenStream} {ts us : List Token} (h : s.Drains ts) (h' : s.Drains us) :
    ts = us := by
  induction h generalizing us with
  | done none =>
    cases h' with
    | done => rfl
    | pull some => rw [none] at some; cases some
  | pull some _ ih =>
    cases h' with
    | done none => rw [none] at some; cases some
    | pull some' more =>
      rw [some] at some'; cases some'
      rw [ih more]

/-- Tokens in the queue come first. -/
theorem drains_queued {queued rest : List Token} {s : Scanner} {ended : Bool}
    (h : Drains ⟨[], s, ended⟩ rest) : Drains ⟨queued, s, ended⟩ (queued ++ rest) := by
  induction queued with
  | nil => exact h
  | cons t queued ih => exact .pull rfl ih

/-- With an empty queue a round is made, and its tokens come first. -/
theorem drains_round {s : Scanner} {rest : List Token}
    (h : Drains ⟨[], s.round.next, s.round.ended⟩ rest) :
    Drains ⟨[], s, false⟩ (s.round.tokens ++ rest) := by
  cases ht : s.round.tokens with
  | nil => exact absurd ht s.round_tokens_ne_nil
  | cons t queued =>
    have first : next? ⟨[], s, false⟩ = some (t, ⟨queued, s.round.next, s.round.ended⟩) := by
      simp only [next?, ht]
      rfl
    exact .pull first (drains_queued h)

theorem drains_tokens {n : Nat} {s : Scanner} (h : s.rest.length < n) :
    Drains ⟨[], s, false⟩ (s.tokens n) := by
  induction n generalizing s with
  | zero => omega
  | succ n ih =>
    rw [Scanner.tokens]
    cases ended : s.round.ended with
    | true =>
      have done : Drains ⟨[], s.round.next, s.round.ended⟩ [] := .done (by rw [ended]; rfl)
      simpa using drains_round done
    | false =>
      have shorter := Scanner.round_shortens ended
      have more : Drains ⟨[], s.round.next, s.round.ended⟩ (s.round.next.tokens n) := by
        rw [ended]; exact ih (by omega)
      simpa using drains_round more

theorem drains_iff {text : Text} {ts : List Token} :
    (ofText text).Drains ts ↔ ts = tokenize text := by
  have drains : (ofText text).Drains (tokenize text) := drains_tokens (Nat.lt_succ_self _)
  exact ⟨fun h => h.unique drains, fun h => h ▸ drains⟩

/-- Pulling tokens until none comes ends for every source, and gives the same tokens each time.
The last of them and no other is the end marker, and they spell the source. -/
theorem drains_source (text : Text) :
    ∃ body last, (∀ ts, (ofText text).Drains ts ↔ ts = body ++ [last]) ∧
      last.kind = .endMarker ∧ (∀ t ∈ body, t.kind ≠ .endMarker) ∧
      Token.concat (body ++ [last]) = text := by
  obtain ⟨body, last, tokens, hlast, hbody⟩ := tokenize_eq text
  refine ⟨body, last, fun ts => ?_, hlast, hbody, ?_⟩
  · rw [drains_iff, tokens]
  · rw [← tokens]; exact concat_tokenize text

end TokenStream

end Caret

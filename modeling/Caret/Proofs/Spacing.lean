import Caret.Proofs.Lines
/-!
# Lines with white space between the lexemes

A line of names, zeros, operators and brackets in pairs is read as it is written, whatever white
space stands behind each lexeme, if there is some between two words and if no operator goes on with
the character behind it. The gaps are trivia, so the tokens are the lexemes, each at its place.

Results:
* `Legible`: lexemes that may be written one after the other.
* `Stretch`: a lexeme and the white space behind it; `Stretch.laid` gives the places.
* `Legible.tokenize`: the tokens of a line of such lexemes.
-/
namespace Caret

variable {faces : List (TokenKind × Text)} {n z gap : Text} {c : Char} {depth : Nat}
  {o : Operator} {inBrackets : Bool}

/-! ## Lexemes and what is behind them -/

namespace Operator

/-- The characters with which an operator goes on behind this one. -/
def continuations (o : Operator) : List Char :=
  (all.filter fun o' => o.spelling.toList.isPrefixOf o'.spelling.toList).filterMap fun o' =>
    o'.spelling.toList[o.spelling.length]?

/-- Before a character that no operator goes on with, the operator is read as it is written. -/
theorem atFront?_apart (apart : ∀ c ∈ z.head?, c ∉ o.continuations) :
    atFront? (o.spelling.toList ++ z) = some o := by
  refine atFront?_eq (List.prefix_append _ _) fun o' front => Nat.le_of_not_lt fun longer => ?_
  rw [← String.length_toList, ← String.length_toList] at longer
  have inner : o.spelling.toList <+: o'.spelling.toList :=
    List.prefix_of_prefix_length_le (List.prefix_append _ _) front (Nat.le_of_lt longer)
  obtain ⟨more, spelled⟩ := inner
  cases more with
  | nil => simp [← spelled] at longer
  | cons c more =>
    rw [← spelled] at front
    obtain ⟨rest, rfl⟩ := (List.prefix_append_right_inj _).1 front
    refine apart c rfl (List.mem_filterMap.2 ⟨o', List.mem_filter.2 ⟨mem_all o', ?_⟩, ?_⟩)
    · rw [List.isPrefixOf_iff_prefix, ← spelled]
      exact List.prefix_append _ _
    · rw [← spelled, ← String.length_toList]
      simp

/-- Operators that start with a point start like numbers. -/
def isPlain (o : Operator) : Bool := o.spelling.toList.head? != some '.'

/-- What the first character of an operator is not. -/
theorem first_spelling (o : Operator) : ∃ c rest, o.spelling.toList = c :: rest ∧
    isNameContinue c = false ∧ isNameStart c = false ∧ StringLiteral.isQuote c = false ∧
      c.isDigit = false ∧ c ≠ '\n' ∧ c ≠ '\\' ∧ ∀ b, Scanner.passes b false c = none := by
  cases o <;> exact ⟨_, _, rfl, by decide⟩

end Operator

namespace Scanner

/-- A zero is read as it is written unless the character behind goes on with a word or a number. -/
theorem lexeme_zero (behind : ∀ d ∈ z.head?, isNameContinue d = false ∧ d ≠ '.') :
    lexeme '0' z = ⟨.number, 1⟩ := by
  have length : Numeral.length ('0' :: z) = 1 := by
    cases z with
    | nil => rfl
    | cons d z =>
      obtain ⟨noName, noPoint⟩ := behind d rfl
      have digit : d.isDigit = false ∧ d ≠ '_' := by
        simp only [isNameContinue, Text.isAlphanumeric, Text.isNumeric, Bool.or_eq_false_iff]
          at noName
        exact ⟨noName.1.2.1, by simpa using noName.2⟩
      have noMark : ∀ e ∈ ['x', 'X', 'o', 'O', 'b', 'B', 'e', 'E', 'j', 'J'], d ≠ e := by
        have names : ∀ e ∈ ['x', 'X', 'o', 'O', 'b', 'B', 'e', 'E', 'j', 'J'],
            isNameContinue e = true := List.all_eq_true.1 (by decide)
        rintro e he rfl
        rw [names d he] at noName
        cases noName
      simp only [List.forall_mem_cons, List.not_mem_nil, false_implies, implies_true,
        and_true] at noMark
      have whole : Numeral.runLength Numeral.isDigitOrMark ('0' :: d :: z) = 1 := by
        simp [Numeral.runLength, Numeral.isDigitOrMark, digit]
      rw [Numeral.length_cons, if_neg (by simp [Numeral.isBaseMark, noMark]),
        Numeral.decimalLength, whole]
      simp [Numeral.fractionLength, noPoint, Numeral.exponentLength, Numeral.imaginaryLength,
        noMark]
  rw [lexeme, if_neg (by decide), if_neg (by decide), if_pos (by rfl), length]

/-- An operator is read as it is written unless one goes on with the character behind. -/
theorem lexeme_spelling {tail : Text} (plain : o.isPlain = true)
    (text : o.spelling.toList ++ z = c :: tail) (apart : ∀ d ∈ z.head?, d ∉ o.continuations) :
    lexeme c tail = ⟨.op o, o.spelling.length⟩ := by
  obtain ⟨d, rest, spelled, -, noName, noQuote, noDigit, noFeed, -, passes⟩ := o.first_spelling
  have whole := text
  rw [spelled, List.cons_append] at text
  obtain ⟨rfl, rfl⟩ := List.cons.inj text
  have noReturn : d ≠ '\r' := by
    rintro rfl
    exact absurd (passes false) (by decide)
  have noPoint : d ≠ '.' := by
    rintro rfl
    simp [Operator.isPlain, spelled] at plain
  have number : Numeral.startsAt (d :: (rest ++ z)) = false := by
    simp [Numeral.startsAt, noDigit, noPoint]
  rw [lexeme, if_neg (by simp [noFeed, noReturn]), noQuote, if_neg Bool.false_ne_true, number,
    if_neg Bool.false_ne_true, noName, if_neg Bool.false_ne_true, operatorLexeme, ← whole,
    Operator.atFront?_apart apart]

end Scanner

/-- So many brackets being open, these lexemes may be written one after the other, with white space
between words, and close the brackets. -/
inductive Legible : Nat → List (TokenKind × Text) → Prop
  | nil : Legible 0 []
  | name {depth : Nat} {n : Text} {faces : List (TokenKind × Text)} (own : SpellsName n)
      (more : Legible depth faces) : Legible depth ((.name, n) :: faces)
  | zero {depth : Nat} {faces : List (TokenKind × Text)} (more : Legible depth faces) :
      Legible depth ((.number, ['0']) :: faces)
  | operator {depth : Nat} {o : Operator} {faces : List (TokenKind × Text)}
      (plain : o.isPlain = true) (apart : ∀ c ∈ (written faces).head?, c ∉ o.continuations)
      (more : Legible (o.depthAfter depth) faces) :
      Legible depth ((.op o, o.spelling.toList) :: faces)

/-! ## Lines -/

/-- A lexeme and the white space behind it. -/
structure Stretch where
  kind : TokenKind
  value : Text
  gap : Text

namespace Stretch

def face (p : Stretch) : TokenKind × Text := (p.kind, p.value)

/-- A name, a reserved word or a number. -/
def isWord (p : Stretch) : Bool := p.kind == .name || p.kind == .number

/-- The text of stretches. -/
def text (line : List Stretch) : Text := line.flatMap fun p => p.value ++ p.gap

@[simp] theorem text_nil : text [] = [] := rfl

@[simp] theorem text_cons (p : Stretch) (line : List Stretch) :
    text (p :: line) = p.value ++ p.gap ++ text line := rfl

/-- The tokens of stretches from this position on, without trivia. -/
def laid (pos : Position) : List Stretch → List Token
  | [] => []
  | p :: line =>
    ⟨p.kind, p.value, [], pos⟩ :: laid (pos.advancedBy (p.value ++ p.gap)) line

theorem faces_laid (pos : Position) (line : List Stretch) :
    (laid pos line).map Parser.face = line.map face := by
  induction line generalizing pos with
  | nil => rfl
  | cons p line ih =>
    rw [laid, List.map_cons, ih]
    rfl

end Stretch

/-- Only white space stands between the lexemes of a line, and some between two words. -/
structure Spaced (line : List Stretch) : Prop where
  blank : ∀ p ∈ line, ∀ c ∈ p.gap, Scanner.IsBlank c
  apart : line.IsChain fun p q => p.isWord → q.isWord → p.gap ≠ []

variable {line : List Stretch} {p : Stretch}

theorem Spaced.tail (h : Spaced (p :: line)) : Spaced line :=
  ⟨fun q hq => h.blank q (List.mem_cons_of_mem _ hq), h.apart.tail⟩

/-- A character that no lexeme goes on with. -/
structure EndsLexeme (c : Char) : Prop where
  name : isNameContinue c = false
  quote : StringLiteral.isQuote c = false
  point : c ≠ '.'
  operator : ∀ o : Operator, c ∉ o.continuations

theorem endsLexeme_blank (h : Scanner.IsBlank c ∨ c = '\n') : EndsLexeme c := by
  have none : (Operator.all.flatMap Operator.continuations).all (fun d =>
      d ∉ [' ', '\t', '\x0c', '\n']) = true := by
    decide
  have own : c ∈ [' ', '\t', '\x0c', '\n'] := by
    rcases h with (rfl | rfl | rfl) | rfl <;> decide
  have operator (o : Operator) : c ∉ o.continuations := by
    intro goesOn
    have other := List.all_eq_true.1 none c
      (List.mem_flatMap.2 ⟨o, Operator.mem_all o, goesOn⟩)
    exact of_decide_eq_true other own
  rcases h with (rfl | rfl | rfl) | rfl <;> exact ⟨by decide, by decide, by decide, operator⟩

namespace Legible

theorem value_ne_nil {face : TokenKind × Text} (h : Legible depth (face :: faces)) :
    face.2 ≠ [] := by
  cases h with
  | name own =>
    obtain ⟨c, rest, rfl, -⟩ := own.start
    simp
  | zero => simp
  | operator =>
    rename_i o _ _ _
    obtain ⟨c, rest, spelled, -⟩ := o.first_spelling
    simp [spelled]

theorem no_return {face : TokenKind × Text} (h : Legible depth (face :: faces)) :
    '\r' ∉ face.2 ∧ ∃ depth, Legible depth faces := by
  cases h with
  | name own more => exact ⟨fun h => absurd (own.continues _ h) (by decide), _, more⟩
  | zero more => exact ⟨by decide, _, more⟩
  | @operator _ o _ _ _ more => exact ⟨fun h => o.solid_spelling _ h (by decide), _, more⟩

/-- A line of such lexemes holds no carriage return. -/
theorem free (h : Legible depth (line.map Stretch.face)) (spaced : Spaced line) :
    '\r' ∉ Stretch.text line := by
  induction line generalizing depth with
  | nil => simp
  | cons p line ih =>
    obtain ⟨value, depth, more⟩ := h.no_return
    have gap : '\r' ∉ p.gap := fun h =>
      absurd (spaced.blank p List.mem_cons_self _ h) (by simp [Scanner.IsBlank])
    have value : '\r' ∉ p.value := value
    simp [value, gap, ih more spaced.tail]

/-- The character behind a lexeme ends it, or there is no gap and the next lexeme starts with it. -/
theorem behind (h : Legible depth (line.map Stretch.face)) (spaced : Spaced (p :: line)) :
    ∀ c ∈ (p.gap ++ (Stretch.text line ++ ['\n'])).head?, EndsLexeme c ∨
      ∃ q rest, line = q :: rest ∧ p.gap = [] ∧ c ∈ q.value.head? := by
  intro c hc
  cases gap : p.gap with
  | cons d gap' =>
    rw [gap] at hc
    cases hc
    refine .inl (endsLexeme_blank (.inl (spaced.blank p List.mem_cons_self c ?_)))
    rw [gap]
    exact List.mem_cons_self
  | nil =>
    rw [gap, List.nil_append] at hc
    cases line with
    | nil =>
      cases hc
      exact .inl (endsLexeme_blank (.inr rfl))
    | cons q rest =>
      obtain ⟨d, value, first⟩ := List.exists_cons_of_ne_nil h.value_ne_nil
      have first : q.value = d :: value := first
      refine .inr ⟨q, rest, rfl, rfl, ?_⟩
      rw [Stretch.text_cons, first] at hc
      rw [first]
      exact hc

/-- A lexeme that is no word starts with a character that ends one. -/
theorem first_not_word (h : Legible depth (p.face :: faces)) (other : p.isWord = false) :
    ∀ c ∈ p.value.head?, isNameContinue c = false ∧ StringLiteral.isQuote c = false ∧ c ≠ '.' := by
  obtain ⟨kind, value, gap⟩ := p
  dsimp only [Stretch.face] at h ⊢
  cases h with
  | name | zero => simp [Stretch.isWord] at other
  | @operator _ o _ plain =>
    obtain ⟨c, rest, spelled, noName, -, noQuote, -⟩ := o.first_spelling
    rw [Operator.isPlain, spelled] at plain
    rw [spelled]
    rintro d ⟨⟩
    exact ⟨noName, noQuote, by simpa using plain⟩

/-- A character behind a word neither goes on with it nor makes it the mark of a string. -/
theorem behind_word (h : Legible depth (line.map Stretch.face)) (spaced : Spaced (p :: line))
    (word : p.isWord = true) : ∀ c ∈ (p.gap ++ (Stretch.text line ++ ['\n'])).head?,
      isNameContinue c = false ∧ StringLiteral.isQuote c = false ∧ c ≠ '.' := by
  intro c hc
  rcases h.behind spaced c hc with ends | ⟨q, rest, rfl, gap, first⟩
  · exact ⟨ends.name, ends.quote, ends.point⟩
  · refine h.first_not_word (Bool.eq_false_iff.2 fun other => ?_) c first
    exact (List.isChain_cons_cons.1 spaced.apart).1 word other gap

/-- The next lexeme is read as it is written, and the rest is legible. -/
theorem reads (h : Legible depth (p.face :: line.map Stretch.face)) (spaced : Spaced (p :: line)) :
    ∃ c tail, p.value ++ (p.gap ++ (Stretch.text line ++ ['\n'])) = c :: tail ∧ c ≠ '\n' ∧
      c ≠ '\\' ∧ (∀ b, Scanner.passes b false c = none) ∧
      Scanner.lexeme c tail = ⟨p.kind, p.value.length⟩ ∧ p.kind ≠ .newline ∧
      Legible (Scanner.depthAfter p.kind depth) (line.map Stretch.face) := by
  obtain ⟨kind, value, gap⟩ := p
  dsimp only [Stretch.face] at h ⊢
  cases h with
  | name own more =>
    have behind := more.behind_word spaced rfl
    obtain ⟨c, rest, text, start⟩ := own.start
    have whole : value ++ (gap ++ (Stretch.text line ++ ['\n'])) = c :: _ :=
      congrArg (· ++ (gap ++ (Stretch.text line ++ ['\n']))) text
    exact ⟨c, _, whole, Scanner.ne_of_isNameStart start (by decide),
      Scanner.ne_of_isNameStart start (by decide),
      fun _ => Scanner.passes_of_isNameStart start,
      Scanner.lexeme_word own whole fun d hd => ⟨(behind d hd).1, (behind d hd).2.1⟩,
      by decide, more⟩
  | zero more =>
    have behind := more.behind_word spaced rfl
    exact ⟨'0', _, rfl, by decide, by decide, by decide,
      Scanner.lexeme_zero fun d hd => ⟨(behind d hd).1, (behind d hd).2.2⟩, by decide, more⟩
  | @operator _ o _ plain apart more =>
    have behind : ∀ d ∈ (gap ++ (Stretch.text line ++ ['\n'])).head?, d ∉ o.continuations := by
      intro d hd
      rcases more.behind spaced d hd with ends | ⟨q, rest, rfl, -, first⟩
      · exact ends.operator o
      · obtain ⟨value, hv⟩ := List.head?_eq_some_iff.1 first
        refine apart d ?_
        rw [List.map_cons, written_cons, Stretch.face, hv]
        rfl
    obtain ⟨c, rest, spelled, -, -, -, -, noFeed, noEscape, passes⟩ := o.first_spelling
    have whole : o.spelling.toList ++ (gap ++ (Stretch.text line ++ ['\n'])) = c :: _ :=
      congrArg (· ++ (gap ++ (Stretch.text line ++ ['\n']))) spelled
    refine ⟨c, _, whole, noFeed, noEscape, passes, ?_, by simp, more⟩
    rw [Scanner.lexeme_spelling plain whole behind, String.length_toList]

end Legible

/-! ## Tokens -/

namespace Scanner

/-- Behind the last line end, where no block is open, there is the end marker only. -/
theorem tokens_source_end (pos : Position) (k : Nat) :
    (⟨[], pos, [0], 0, true⟩ : Scanner).tokens (k + 1) = [⟨.endMarker, [], [], pos⟩] := by
  simp [tokens, round, margin, gap]

/-- The tokens of legible lexemes are these, each at its place, the line end and the end marker. -/
theorem tokens_legible (trivia : Text) {s : Scanner} {k : Nat}
    (h : Legible s.depth (line.map Stretch.face)) (spaced : Spaced line)
    (inside : s.atLineStart = false) (margins : s.margins = [0])
    (text : s.rest = trivia ++ (Stretch.text line ++ ['\n'])) (blank : ∀ d ∈ trivia, IsBlank d)
    (rounds : s.rest.length < k) : ∃ ts u v, s.tokens k = ts ++ [u, v] ∧
      ts.map Token.bare = Stretch.laid (s.position.advancedBy trivia) line ∧
      Parser.face u = (.newline, ['\n']) ∧ v.kind = .endMarker := by
  induction line generalizing s k trivia with
  | nil =>
    generalize none : s.depth = depth at h
    cases h
    obtain ⟨k, rfl⟩ : ∃ j, k = j + 2 := by
      simp [text] at rounds
      exact ⟨k - 2, by omega⟩
    have between : gap (0 < s.depth) false s.rest = (trivia, ['\n']) := by
      rw [none, text]
      exact gap_blank blank (by decide) (by decide) []
    have read : lexeme '\n' [] = ⟨.newline, 1⟩ := rfl
    have round := round_read inside between read
    have next : s.round.next =
        ⟨[], (s.position.advancedBy trivia).advancedBy ['\n'], [0], 0, true⟩ := by
      simp [round, margins, none, depthAfter]
    refine ⟨[], ⟨.newline, ['\n'], trivia, s.position.advancedBy trivia⟩,
      ⟨.endMarker, [], [], (s.position.advancedBy trivia).advancedBy ['\n']⟩, ?_, rfl, rfl, rfl⟩
    rw [tokens, if_neg (by simp [round]), next, tokens_source_end, round]
    rfl
  | cons p line ih =>
    obtain ⟨k, rfl⟩ : ∃ j, k = j + 1 := ⟨k - 1, by omega⟩
    obtain ⟨c, tail, front, -, escape, stops, read, inner, more⟩ := h.reads spaced
    have between : gap (0 < s.depth) false s.rest = (trivia, c :: tail) := by
      rw [text, Stretch.text_cons, List.append_assoc, List.append_assoc, front]
      exact gap_blank blank (stops _) escape tail
    have round := round_read inside between read
    rw [← front, List.take_left, List.drop_left, decide_eq_false inner] at round
    have goesOn : s.round.ended = false := by rw [round]
    have shorter := round_shortens goesOn
    rw [round] at shorter
    -- the gap behind the lexeme is the trivia of the next one
    obtain ⟨ts, u, v, behind, laid, lineEnd, marker⟩ := ih p.gap
      (s := s.round.next) (k := k) (by rw [round]; exact more) spaced.tail
      (by rw [round]) (by rw [round]; exact margins) (by rw [round])
      (spaced.blank p List.mem_cons_self) (by rw [round]; omega)
    refine ⟨⟨p.kind, p.value, trivia, s.position.advancedBy trivia⟩ :: ts, u, v, ?_, ?_,
      lineEnd, marker⟩
    · rw [tokens, if_neg (by simp [goesOn]), behind, round]
      rfl
    · rw [List.map_cons, laid, round, ← Position.advancedBy_append]
      rfl

end Scanner

/-- The tokens of a line of legible lexemes are these, each at its place, the line end and the end
marker. -/
theorem Legible.tokenize (h : Legible 0 (line.map Stretch.face)) (spaced : Spaced line)
    (some : line ≠ []) : ∃ ts u v, tokenize (Stretch.text line ++ ['\n']) = ts ++ [u, v] ∧
      ts.map Token.bare = Stretch.laid .start line ∧
      Parser.face u = (.newline, ['\n']) ∧ v.kind = .endMarker := by
  obtain ⟨p, line, rfl⟩ := List.exists_cons_of_ne_nil some
  obtain ⟨c, tail, front, noFeed, escape, stops, -⟩ := h.reads spaced
  have whole : Stretch.text (p :: line) ++ ['\n'] = c :: tail := by
    rw [Stretch.text_cons, List.append_assoc, List.append_assoc, front]
  have noReturn : '\r' ∉ c :: tail := by
    rw [← whole, List.mem_append, not_or]
    exact ⟨h.free spaced, by decide⟩
  have first : Scanner.Gap false false [] (c :: tail) :=
    .stop (stops _) fun _ backslash => absurd backslash escape
  rw [Caret.tokenize, whole, Scanner.tokens_first first noReturn noFeed]
  exact Scanner.tokens_legible [] h spaced rfl rfl whole.symm (by simp)
    (Nat.lt_succ_self _)

end Caret

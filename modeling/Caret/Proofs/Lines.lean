import Caret.Proofs.Spelling
/-!
# The tokens of a line

Where lexemes are written one after the other and the scanner reads each of them as it was written,
the tokens of the line are these lexemes, each in the column behind the text before it. A name is
read as written unless it goes on or becomes the mark of a string; of dots the scanner takes three
at a time, and then one at a time.

Results:
* `Spelled`: lexemes that are read as they are written, up to the end of the line.
* `tokens_spelled`: the tokens of such a line.
* `spelled_dots`, `spelled_path`: dots, and names with dots between them, are read as written.
* `tokenize_line`: the tokens of a line of a word, a space, and lexemes behind it.
-/
namespace Caret

variable {faces more : List (TokenKind × Text)} {n w z : Text} {c : Char} {column : Nat}

/-! ## Lexemes that are written one after the other -/

/-- The text of lexemes. -/
def written (faces : List (TokenKind × Text)) : Text := faces.flatMap (·.2)

@[simp] theorem written_nil : written [] = [] := rfl

@[simp] theorem written_cons (face : TokenKind × Text) (faces : List (TokenKind × Text)) :
    written (face :: faces) = face.2 ++ written faces := rfl

@[simp] theorem written_append (faces more : List (TokenKind × Text)) :
    written (faces ++ more) = written faces ++ written more :=
  List.flatMap_append

/-- Tokens for lexemes of the first line, from this column on. -/
def laid (column : Nat) : List (TokenKind × Text) → List Token
  | [] => []
  | (kind, value) :: rest => ⟨kind, value, [], ⟨1, column⟩⟩ :: laid (column + value.length) rest

theorem laid_append (faces more : List (TokenKind × Text)) (column : Nat) :
    laid column (faces ++ more) =
      laid column faces ++ laid (column + (written faces).length) more := by
  induction faces generalizing column with
  | nil => rfl
  | cons face faces ih =>
    obtain ⟨kind, value⟩ := face
    simp only [List.cons_append, laid, ih, written_cons, List.length_append, Nat.add_assoc]

/-- The first of tokens that are laid out. -/
theorem laid_eq_cons {ts : List Token} {kind : TokenKind} {value : Text}
    (h : ts.map Token.bare = laid column ((kind, value) :: faces)) :
    ∃ t us, ts = t :: us ∧ t.kind = kind ∧ t.value = value ∧ t.start = ⟨1, column⟩ ∧
      us.map Token.bare = laid (column + value.length) faces := by
  obtain ⟨t, us, rfl, first, rest⟩ := List.map_eq_cons_iff.1 h
  exact ⟨t, us, rfl, congrArg Token.kind first, congrArg Token.value first,
    congrArg Token.start first, rest⟩

theorem laid_eq_singleton {ts : List Token} {kind : TokenKind} {value : Text}
    (h : ts.map Token.bare = laid column [(kind, value)]) :
    ∃ t, ts = [t] ∧ t.kind = kind ∧ t.value = value ∧ t.start = ⟨1, column⟩ := by
  obtain ⟨t, us, rfl, own, same, start, none⟩ := laid_eq_cons h
  exact ⟨t, by rw [List.map_eq_nil_iff.1 none], own, same, start⟩

theorem laid_eq_append {ts : List Token} (h : ts.map Token.bare = laid column (faces ++ more)) :
    ∃ us vs, ts = us ++ vs ∧ us.map Token.bare = laid column faces ∧
      vs.map Token.bare = laid (column + (written faces).length) more := by
  rw [laid_append] at h
  exact List.map_eq_append_iff.1 h

/-- What is true of tokens that are laid out is true of their lexemes. -/
theorem laid_values {ts : List Token} (h : ts.map Token.bare = laid column faces) :
    ts.map (fun t => (t.kind, t.value)) = faces := by
  induction faces generalizing ts column with
  | nil => rw [List.map_eq_nil_iff.1 h, List.map_nil]
  | cons face faces ih =>
    obtain ⟨t, us, rfl, kind, value, -, rest⟩ := laid_eq_cons h
    rw [List.map_cons, ih rest, kind, value]

theorem laid_written {ts : List Token} (h : ts.map Token.bare = laid column faces) :
    ts.flatMap (·.value) = written faces := by
  rw [← laid_values h, written, List.flatMap_map]

/-- Tokens that are laid out start before the column behind them. -/
theorem laid_start {ts : List Token} (h : ts.map Token.bare = laid column faces)
    (wide : ∀ face ∈ faces, face.2 ≠ []) :
    ∀ t ∈ ts, t.start < ⟨1, column + (written faces).length⟩ := by
  induction faces generalizing ts column with
  | nil =>
    rw [List.map_eq_nil_iff.1 h]
    simp
  | cons face faces ih =>
    obtain ⟨t, us, rfl, -, -, start, rest⟩ := laid_eq_cons h
    have pos := List.length_pos_iff.2 (wide face List.mem_cons_self)
    intro u hu
    rw [written_cons, List.length_append]
    rcases List.mem_cons.1 hu with rfl | hu
    · rw [start]
      exact .inr ⟨rfl, Nat.lt_add_of_pos_right (Nat.add_pos_left pos _)⟩
    · rw [← Nat.add_assoc]
      exact ih rest (fun face hf => wide face (List.mem_cons_of_mem _ hf)) u hu

/-- A line end, or lexemes before it that the scanner reads as they are written. -/
inductive Spelled : List (TokenKind × Text) → Prop
  | lineEnd : Spelled [(.newline, ['\n'])]
  | lexeme {kind : TokenKind} {value tail : Text} {c : Char} {faces : List (TokenKind × Text)}
      (text : value ++ written faces = c :: tail) (stops : Scanner.passes false false c = none)
      (escape : c ≠ '\\') (read : Scanner.lexeme c tail = ⟨kind, value.length⟩)
      (inner : kind ≠ .newline ∧ Scanner.depthAfter kind 0 = 0)
      (flat : ∀ d ∈ value, d ≠ '\n' ∧ d ≠ '\r') (more : Spelled faces) :
      Spelled ((kind, value) :: faces)

theorem Position.advancedBy_line (flat : '\n' ∉ w) (line column : Nat) :
    (⟨line, column⟩ : Position).advancedBy w = ⟨line, column + w.length⟩ := by
  induction w generalizing column with
  | nil => rfl
  | cons c w ih =>
    have step : (⟨line, column⟩ : Position).advance c = ⟨line, column + 1⟩ := by
      rw [Position.advance, if_neg (by rintro rfl; exact flat List.mem_cons_self)]
    show ((⟨line, column⟩ : Position).advance c).advancedBy w = _
    rw [step, ih fun h => flat (List.mem_cons_of_mem _ h), List.length_cons]
    congr 1
    omega

namespace Scanner

variable {inBrackets : Bool} {trivia : Text}

/-- Nothing is passed over before a character that ends a gap. -/
theorem gap_stop (stops : passes inBrackets false c = none) (escape : c ≠ '\\') (tail : Text) :
    gap inBrackets false (c :: tail) = ([], c :: tail) := by
  have noReturn : c ≠ '\r' := by
    rintro rfl
    cases inBrackets <;> exact absurd stops (by decide)
  rw [gap_step noReturn fun _ backslash => absurd backslash escape, stops]

/-- White space inside a line. -/
def IsBlank (c : Char) : Prop := c = ' ' ∨ c = '\t' ∨ c = '\x0c'

/-- White space is passed over before such a character. -/
theorem gap_blank (blank : ∀ d ∈ trivia, IsBlank d) (stops : passes inBrackets false c = none)
    (escape : c ≠ '\\') (tail : Text) :
    gap inBrackets false (trivia ++ c :: tail) = (trivia, c :: tail) := by
  induction trivia with
  | nil => exact gap_stop stops escape tail
  | cons d trivia ih =>
    have passed : passes inBrackets false d = some false ∧ d ≠ '\r' ∧ d ≠ '\\' := by
      rcases blank d List.mem_cons_self with rfl | rfl | rfl <;>
        cases inBrackets <;> decide
    obtain ⟨goesOn, noReturn, noEscape⟩ := passed
    rw [List.cons_append, gap_step noReturn fun _ backslash => absurd backslash noEscape, goesOn]
    dsimp only
    rw [ih fun d hd => blank d (List.mem_cons_of_mem _ hd)]

/-- The tokens of a line are its lexemes, each in its column; the first one may have white space
before it. -/
theorem tokens_spelled (h : Spelled faces) {s : Scanner} {k : Nat}
    (inside : s.atLineStart = false) (depth : s.depth = 0) (text : s.rest = trivia ++ written faces)
    (blank : ∀ d ∈ trivia, IsBlank d) (pos : s.position.advancedBy trivia = ⟨1, column⟩)
    (rounds : s.rest.length < k) :
    ∃ ts more, s.tokens k = ts ++ more ∧ ts.map Token.bare = laid column faces := by
  induction h generalizing s column trivia k with
  | lineEnd =>
    obtain ⟨k, rfl⟩ : ∃ j, k = j + 1 := ⟨k - 1, by omega⟩
    have between : gap (0 < s.depth) false s.rest = (trivia, ['\n']) := by
      rw [depth, text]
      exact gap_blank blank (by decide) (by decide) []
    have read : lexeme '\n' [] = ⟨.newline, 1⟩ := rfl
    have round := round_read inside between read
    refine ⟨_, s.round.next.tokens k, by rw [Scanner.tokens, if_neg (by simp [round])], ?_⟩
    rw [round, pos]
    rfl
  | @lexeme kind value tail c faces front stops escape read inner flat spelled ih =>
    obtain ⟨k, rfl⟩ : ∃ j, k = j + 1 := ⟨k - 1, by omega⟩
    have between : gap (0 < s.depth) false s.rest = (trivia, c :: tail) := by
      rw [depth, text, written_cons, front]
      exact gap_blank blank stops escape tail
    have round := round_read inside between read
    have noFeed : '\n' ∉ value := fun h => (flat _ h).1 rfl
    rw [← front, List.take_left, List.drop_left, pos, Position.advancedBy_line noFeed, depth,
      inner.2, decide_eq_false inner.1] at round
    have goesOn : s.round.ended = false := by rw [round]
    have shorter := round_shortens goesOn
    have rest : s.round.next.rest = [] ++ written faces := by rw [round]; rfl
    obtain ⟨ts, more, tokens, laid⟩ := ih (k := k) (by rw [round]) (by rw [round]) rest (by simp)
      (by rw [round]; rfl) (by omega)
    refine ⟨s.round.tokens ++ ts, more, ?_, ?_⟩
    · rw [Scanner.tokens, if_neg (by simp [goesOn]), tokens, List.append_assoc]
    · rw [List.map_append, laid, round]
      rfl

end Scanner

/-! ## Names -/

/-- The text is spelled as names are. -/
structure SpellsName (n : Text) : Prop where
  start : ∃ c rest, n = c :: rest ∧ isNameStart c = true
  continues : ∀ c ∈ n, isNameContinue c = true

/-- A name that is no reserved word. -/
structure IsIdentifier (n : Text) : Prop extends SpellsName n where
  free : Keyword.ofText? n = none

/-- A digit is one of ten characters. -/
theorem isDigit_of_isNameStart (h : isNameStart c = true) : c.isDigit = false := by
  have digits : ∀ i < 10, isNameStart (Char.ofNat (48 + i)) = false := by decide
  cases digit : c.isDigit with
  | false => rfl
  | true =>
    have range : 48 ≤ c.toNat ∧ c.toNat ≤ 57 := by
      simpa [Char.isDigit, UInt32.le_iff_toNat_le] using digit
    have none := digits (c.toNat - 48) (by omega)
    rw [show 48 + (c.toNat - 48) = c.toNat by omega, Char.ofNat_toNat, h] at none
    cases none

namespace Scanner

/-- Characters that no name starts with. -/
theorem ne_of_isNameStart {d : Char} (h : isNameStart c = true) (other : isNameStart d = false) :
    c ≠ d := by
  rintro rfl
  rw [h] at other
  cases other

/-- A name is read as it is written if what is behind it neither continues it nor is a quote. -/
theorem lexeme_word {tail : Text} (own : SpellsName n) (text : n ++ z = c :: tail)
    (behind : ∀ d ∈ z.head?, isNameContinue d = false ∧ StringLiteral.isQuote d = false) :
    lexeme c tail = ⟨.name, n.length⟩ := by
  obtain ⟨⟨c', rest, rfl, start⟩, continues⟩ := own
  rw [List.cons_append] at text
  obtain ⟨rfl, rfl⟩ := List.cons.inj text
  have other {d : Char} (h : isNameStart d = false) : c' ≠ d := ne_of_isNameStart start h
  have stop : z.takeWhile isNameContinue = [] := by
    cases z with
    | nil => rfl
    | cons d z => rw [List.takeWhile_cons, (behind d rfl).1]; rfl
  have word : (c' :: (rest ++ z)).takeWhile isNameContinue = c' :: rest := by
    rw [← List.cons_append, List.takeWhile_append_of_pos continues, stop, List.append_nil]
  have number : Numeral.startsAt (c' :: (rest ++ z)) = false := by
    simp [Numeral.startsAt, isDigit_of_isNameStart start, other (d := '.') (by decide)]
  have read : wordLexeme (c' :: (rest ++ z)) = ⟨.name, (c' :: rest).length⟩ := by
    rw [wordLexeme, word, ← List.cons_append, List.drop_left]
    cases z with
    | nil => rfl
    | cons d z => simp [(behind d rfl).2]
  rw [lexeme, if_neg, if_neg, number, if_neg Bool.false_ne_true, if_pos start]
  · exact read
  · simp [StringLiteral.isQuote, other (d := '\'') (by decide), other (d := '"') (by decide)]
  · simp [other (d := '\n') (by decide), other (d := '\r') (by decide)]

theorem passes_of_isNameStart (h : isNameStart c = true) :
    passes inBrackets false c = none := by
  have other {d : Char} (h' : isNameStart d = false) : c ≠ d := ne_of_isNameStart h h'
  simp [passes, other (d := '\n') (by decide), other (d := '#') (by decide),
    other (d := ' ') (by decide), other (d := '\t') (by decide), other (d := '\x0c') (by decide),
    other (d := '\r') (by decide)]

end Scanner

/-- Before lexemes that do not continue it and are no literal, a name is read as it is written. -/
theorem spelled_name (own : SpellsName n) (h : Spelled faces)
    (behind : ∀ d ∈ (written faces).head?,
      isNameContinue d = false ∧ StringLiteral.isQuote d = false) :
    Spelled ((.name, n) :: faces) := by
  obtain ⟨c, rest, text, start⟩ := own.start
  have whole : n ++ written faces = c :: (rest ++ written faces) := by rw [text]; rfl
  refine .lexeme whole (Scanner.passes_of_isNameStart start)
    (Scanner.ne_of_isNameStart start (by decide)) (Scanner.lexeme_word own whole behind)
    ⟨by decide, rfl⟩ (fun d hd => ?_) h
  have continues := own.continues d hd
  constructor <;>
    (rintro rfl; exact absurd continues (by decide))

/-! ## Dots -/

namespace Operator

/-- The operators that start with a dot. -/
theorem eq_of_front {o : Operator} {text : Text} (h : o.spelling.toList <+: '.' :: text) :
    o = .dot ∨ o = .ellipsis := by
  have all : ∀ o ∈ Operator.all, o.spelling.toList.head? = some '.' → o = .dot ∨ o = .ellipsis := by
    decide
  obtain ⟨more, whole⟩ := h
  refine all o (mem_all o) ?_
  have pos := (spelling_length o).1
  rw [← String.length_toList] at pos
  obtain ⟨c, rest, hc⟩ := List.exists_cons_of_length_pos pos
  rw [hc] at whole ⊢
  obtain ⟨rfl, -⟩ := List.cons.inj whole
  rfl

/-- Of fewer than three dots the first is an operator. -/
theorem atFront?_dot (short : ¬ ['.', '.'] <+: z) : atFront? ('.' :: z) = some .dot := by
  cases found : atFront? ('.' :: z) with
  | none =>
    have tried := List.findSome?_eq_none_iff.1 found 1 (by simp)
    cases tried
  | some o =>
    obtain ⟨front, -⟩ := atFront?_longest found
    rcases eq_of_front front with rfl | rfl
    · rfl
    · exact absurd ((List.cons_prefix_cons).1 front).2 short

end Operator

namespace Scanner

theorem lexeme_dots (digit : ∀ d ∈ z.head?, d.isDigit = false) :
    lexeme '.' z = operatorLexeme ('.' :: z) := by
  have number : Numeral.startsAt ('.' :: z) = false := by
    cases z with
    | nil => rfl
    | cons d z => simp [Numeral.startsAt, digit d rfl]
  have start : isNameStart '.' = false := by decide
  rw [lexeme, if_neg (by decide), if_neg (by decide), number, if_neg Bool.false_ne_true, start,
    if_neg Bool.false_ne_true]

/-- Three dots are one operator. -/
theorem lexeme_ellipsis (z : Text) : lexeme '.' ('.' :: '.' :: z) = ⟨.op .ellipsis, 3⟩ := by
  rw [lexeme_dots (by simp)]
  rfl

theorem lexeme_dot (digit : ∀ d ∈ z.head?, d.isDigit = false) (short : ¬ ['.', '.'] <+: z) :
    lexeme '.' z = ⟨.op .dot, 1⟩ := by
  rw [lexeme_dots digit, operatorLexeme, Operator.atFront?_dot short]
  rfl

end Scanner

/-- The lexemes of so many dots: three at a time, and then one at a time. -/
def dotFaces : Nat → List (TokenKind × Text)
  | 0 => []
  | 1 => [(.op .dot, ['.'])]
  | 2 => [(.op .dot, ['.']), (.op .dot, ['.'])]
  | d + 3 => (.op .ellipsis, ['.', '.', '.']) :: dotFaces d

theorem written_dotFaces (d : Nat) : written (dotFaces d) = List.replicate d '.' := by
  induction d using dotFaces.induct with
  | case1 | case2 | case3 => rfl
  | case4 d ih => rw [dotFaces, written_cons, ih]; rfl

theorem dots_length (d : Nat) : (written (dotFaces d)).length = d := by
  rw [written_dotFaces, List.length_replicate]

theorem mem_dotFaces {d : Nat} {face : TokenKind × Text} (h : face ∈ dotFaces d) :
    (face.1 = .op .dot ∨ face.1 = .op .ellipsis) ∧ face.2 ≠ [] := by
  have dot : face = (.op .dot, ['.']) → (face.1 = .op .dot ∨ face.1 = .op .ellipsis) ∧
      face.2 ≠ [] := by
    rintro rfl
    exact ⟨.inl rfl, by simp⟩
  induction d using dotFaces.induct with
  | case1 => cases h
  | case2 => exact dot (List.mem_singleton.1 h)
  | case3 => exact dot (by simpa [dotFaces] using h)
  | case4 d ih =>
    rcases List.mem_cons.1 h with rfl | h
    · exact ⟨.inr rfl, by simp⟩
    · exact ih h

/-- Tokens of dots are dots and ellipses. -/
theorem kind_dots {d : Nat} {ts : List Token} (h : ts.map Token.bare = laid column (dotFaces d)) :
    ∀ t ∈ ts, t.kind = .op .dot ∨ t.kind = .op .ellipsis := by
  intro t ht
  have own : (t.kind, t.value) ∈ dotFaces d := by
    rw [← laid_values h]
    exact List.mem_map_of_mem ht
  exact (mem_dotFaces own).1

theorem spelled_dot (h : Spelled faces) (digit : ∀ d ∈ (written faces).head?, d.isDigit = false)
    (short : ¬ ['.', '.'] <+: written faces) : Spelled ((.op .dot, ['.']) :: faces) :=
  .lexeme rfl (by decide) (by decide) (Scanner.lexeme_dot digit short) ⟨by decide, rfl⟩
    (by simp) h

/-- Dots are read as written before what starts with neither a dot nor a digit. -/
theorem spelled_dots (d : Nat) (h : Spelled faces)
    (behind : ∀ c ∈ (written faces).head?, c ≠ '.' ∧ c.isDigit = false) :
    Spelled (dotFaces d ++ faces) := by
  have other : ¬ ['.', '.'] <+: '.' :: written faces ∧ ¬ ['.', '.'] <+: written faces := by
    cases hf : written faces with
    | nil => simp
    | cons c text =>
      have first : '.' ≠ c := (behind c (by rw [hf]; rfl)).1.symm
      simp [List.cons_prefix_cons, first]
  induction d using dotFaces.induct with
  | case1 => exact h
  | case2 => exact spelled_dot h (fun c hc => (behind c hc).2) other.2
  | case3 =>
    have last := spelled_dot h (fun c hc => (behind c hc).2) other.2
    refine spelled_dot last ?_ other.1
    rintro c ⟨⟩
    rfl
  | case4 d ih =>
    exact .lexeme rfl (by decide) (by decide) (Scanner.lexeme_ellipsis _) ⟨by decide, rfl⟩
      (by simp) ih

/-! ## Names with dots between them -/

/-- The lexemes of names with dots between them. -/
def pathFaces : List Text → List (TokenKind × Text)
  | [] => []
  | [n] => [(.name, n)]
  | n :: m :: names => (.name, n) :: (.op .dot, ['.']) :: pathFaces (m :: names)

theorem pathFaces_cons (n : Text) (names : List Text) :
    ∃ faces, pathFaces (n :: names) = (.name, n) :: faces := by
  cases names <;> exact ⟨_, rfl⟩

theorem written_pathFaces (names : List Text) :
    written (pathFaces names) = ['.'].intercalate names := by
  induction names using pathFaces.induct with
  | case1 => rfl
  | case2 n => simp [pathFaces, List.intercalate]
  | case3 n m names ih =>
    rw [pathFaces, written_cons, written_cons, ih]
    simp [List.intercalate]

/-- The first character of names with dots between them. -/
theorem written_path (own : SpellsName n) (names : List Text) (faces : List (TokenKind × Text)) :
    ∃ c tail, written (pathFaces (n :: names) ++ faces) = c :: tail ∧ isNameStart c = true := by
  obtain ⟨c, rest, rfl, start⟩ := own.start
  cases names <;> exact ⟨c, _, rfl, start⟩

/-- Names with dots between them are read as written before what ends the last name. -/
theorem spelled_path {names : List Text} (own : ∀ n ∈ names, SpellsName n) (h : Spelled faces)
    (behind : ∀ d ∈ (written faces).head?,
      isNameContinue d = false ∧ StringLiteral.isQuote d = false) :
    Spelled (pathFaces names ++ faces) := by
  induction names using pathFaces.induct with
  | case1 => exact h
  | case2 n => exact spelled_name (own n (by simp)) h behind
  | case3 n m names ih =>
    have next := ih fun n hn => own n (List.mem_cons_of_mem _ hn)
    obtain ⟨c, tail, first, start⟩ := written_path (own m (by simp)) names faces
    have noDot : '.' ≠ c := (Scanner.ne_of_isNameStart start (by decide)).symm
    rw [pathFaces, List.cons_append, List.cons_append]
    refine spelled_name (own n (by simp)) (spelled_dot next ?_ ?_) ?_
    · rw [first]
      rintro d ⟨⟩
      exact isDigit_of_isNameStart start
    · rw [first]
      simp [List.cons_prefix_cons, noDot]
    · rintro d ⟨⟩
      decide

/-! ## A word and what follows it -/

/-- Only the last of lexemes that are read as written holds a line end. -/
theorem flat_written {last : TokenKind × Text} (h : Spelled (faces ++ [last])) :
    '\n' ∉ written faces := by
  generalize whole : faces ++ [last] = all at h
  induction h generalizing faces with
  | lineEnd =>
    obtain ⟨rfl, -⟩ := List.append_eq_singleton_iff.1 whole |>.resolve_right (by simp)
    simp
  | lexeme _ _ _ _ _ flat _ ih =>
    cases faces with
    | nil => simp
    | cons face faces =>
      obtain ⟨rfl, rest⟩ := List.cons.inj whole
      intro h
      rcases List.mem_append.1 h with h | h
      · exact (flat _ h).1 rfl
      · exact ih rest h

theorem free_written (h : Spelled faces) : '\r' ∉ written faces := by
  induction h with
  | lineEnd => decide
  | lexeme _ _ _ _ _ flat _ ih =>
    intro h
    rcases List.mem_append.1 h with h | h
    · exact (flat _ h).2 rfl
    · exact ih h

/-- The tokens of a line of a word and, behind a space, lexemes that are read as written. -/
theorem tokenize_line (own : SpellsName w) (h : Spelled faces) : ∃ ts more,
    tokenize (w ++ ' ' :: written faces) = ⟨.name, w, [], .start⟩ :: ts ++ more ∧
      ts.map Token.bare = laid (w.length + 1) faces := by
  obtain ⟨c, rest, text, start⟩ := own.start
  have whole : w ++ ' ' :: written faces = c :: (rest ++ ' ' :: written faces) := by rw [text]; rfl
  have free {d : Char} (other : isNameContinue d = false) : d ∉ w := fun hd => by
    rw [own.continues d hd] at other
    cases other
  have noReturn : '\r' ∉ c :: (rest ++ ' ' :: written faces) := by
    rw [← whole]
    intro h'
    rcases List.mem_append.1 h' with h' | h'
    · exact free (by decide) h'
    · rcases List.mem_cons.1 h' with h' | h'
      · exact absurd h' (by decide)
      · exact free_written h h'
  have stops : Scanner.passes false false c = none := Scanner.passes_of_isNameStart start
  have escape := Scanner.ne_of_isNameStart (d := '\\') start (by decide)
  have read := Scanner.lexeme_word own whole (by rintro d ⟨⟩; decide)
  -- the first round, with which the line starts
  let s : Scanner := ⟨c :: (rest ++ ' ' :: written faces), .start, [0], 0, false⟩
  have first : Scanner.gap (0 < s.depth) false s.rest = ([], c :: (rest ++ ' ' :: written faces)) :=
    Scanner.gap_stop stops escape _
  have round := Scanner.round_read rfl first read
  rw [← whole, List.take_left, List.drop_left, Position.advancedBy_nil] at round
  have goesOn : s.round.ended = false := by rw [round]
  have shorter := Scanner.round_shortens goesOn
  have next : s.round.next.rest = [' '] ++ written faces := by rw [round]; rfl
  have behind : s.round.next.position.advancedBy [' '] = ⟨1, w.length + 1⟩ := by
    rw [round]
    show ((⟨1, 0⟩ : Position).advancedBy w).advancedBy [' '] = _
    rw [Position.advancedBy_line (free (by decide)), Nat.zero_add]
    rfl
  obtain ⟨ts, more, tokens, laid⟩ := Scanner.tokens_spelled h
    (by rw [round]; rfl) (by rw [round]; rfl) next
    (by simp [Scanner.IsBlank]) behind shorter
  refine ⟨ts, more, ?_, laid⟩
  rw [tokenize, whole, Scanner.tokens_first (.stop stops fun _ h => absurd h escape) noReturn
    (Scanner.ne_of_isNameStart start (by decide))]
  show s.tokens (s.rest.length + 1) = _
  rw [Scanner.tokens, goesOn, if_neg Bool.false_ne_true, tokens, round]
  rfl

end Caret

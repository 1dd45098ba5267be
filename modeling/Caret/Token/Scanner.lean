import Caret.Text.Numeric
import Caret.Token
import Caret.Token.Numeral
import Caret.Token.StringLiteral
/-!
# From source to tokens

The scanner reads a source in rounds. A round passes over blank and comment lines, opens and closes
blocks by the margin of the line it is on, passes over white space, and reads one lexeme; at the end
of the source it closes all blocks and gives the end marker. Every source has tokens: what cannot be
read is an error token.

Margins count columns, a tab reaching to the next multiple of eight. A margin that no open block has
closes the blocks that are deeper. No line end is invented at the end of the source.

Results:
* `lexeme_length_pos`: every lexeme has a character, so every round but the last one moves on.
* `margin_append`, `gap_append`: what is passed over and what is left make up the text.
-/
namespace Caret

def isNameStart (c : Char) : Bool := Text.isAlphabetic c || c == '_'

def isNameContinue (c : Char) : Bool := Text.isAlphanumeric c || c == '_'

namespace Scanner

def tabSize : Nat := 8

/-- Length of the line break at the front: one for `\n`, two for `\r\n`. A lone `\r` is none. -/
def lineBreakLength : Text → Nat
  | '\n' :: _ => 1
  | '\r' :: '\n' :: _ => 2
  | _ => 0

/-- What a line starts with. -/
structure Margin where
  /-- Blank lines, comment lines and the indentation. -/
  passed : Text
  /-- Columns of the indentation. -/
  width : Nat
  rest : Text

/-- The character is passed over as well. -/
def Margin.after (c : Char) (m : Margin) : Margin := { m with passed := c :: m.passed }

/-- Pass over blank lines, comment lines and the indentation of the first line that is neither;
`width` columns of the present line have been passed, and `inComment` says that the rest of it is a
comment. -/
def margin : (inComment : Bool) → (width : Nat) → Text → Margin
  | _, width, [] => ⟨[], width, []⟩
  | _, _, '\r' :: '\n' :: rest => ((margin false 0 rest).after '\n').after '\r'
  | inComment, width, c :: rest =>
    if c = '\n' then (margin false 0 rest).after c
    else if inComment then (margin true width rest).after c
    else if c = ' ' then (margin false (width + 1) rest).after c
    else if c = '\t' then (margin false ((width / tabSize + 1) * tabSize) rest).after c
    else if c = '\x0c' then (margin false 0 rest).after c
    else if c = '#' then (margin true width rest).after c
    else ⟨[], width, c :: rest⟩

/-- Pass over what may stand between two lexemes: white space, comments, line continuations, lone
carriage returns and, inside brackets, line breaks. -/
def gap (inBrackets : Bool) : (inComment : Bool) → Text → Text × Text
  | _, [] => ([], [])
  | _, '\r' :: '\n' :: rest =>
    if inBrackets then
      let (passed, rest) := gap inBrackets false rest
      ('\r' :: '\n' :: passed, rest)
    else ([], '\r' :: '\n' :: rest)
  | false, '\\' :: '\r' :: '\n' :: rest =>
    let (passed, rest) := gap inBrackets false rest
    ('\\' :: '\r' :: '\n' :: passed, rest)
  | false, '\\' :: '\r' :: rest =>
    let (passed, rest) := gap inBrackets false rest
    ('\\' :: '\r' :: passed, rest)
  | false, '\\' :: '\n' :: rest =>
    let (passed, rest) := gap inBrackets false rest
    ('\\' :: '\n' :: passed, rest)
  | inComment, c :: rest =>
    let continues : Option Bool :=
      if c = '\n' then if inBrackets then some false else none
      else if inComment then some true
      else if c = '#' then some true
      else if c = ' ' ∨ c = '\t' ∨ c = '\x0c' ∨ c = '\r' then some false
      else none
    match continues with
    | some inComment =>
      let (passed, rest) := gap inBrackets inComment rest
      (c :: passed, rest)
    | none => ([], c :: rest)

/-- Type and length of a lexeme. -/
structure Lexeme where
  kind : TokenKind
  length : Nat

/-- The literal whose opening quote stands after `marks` characters. -/
def literal (marks : Nat) (quote : Char) (afterQuote : Text) : Lexeme :=
  let extent := StringLiteral.extent quote afterQuote
  ⟨if extent.closed then .string else .error, marks + extent.length⟩

/-- A name, or the literal that it marks. -/
def wordLexeme (text : Text) : Lexeme :=
  let word := text.takeWhile isNameContinue
  match text.drop word.length with
  | quote :: rest =>
    if StringLiteral.isQuote quote ∧ StringLiteral.isMark word then literal word.length quote rest
    else ⟨.name, word.length⟩
  | [] => ⟨.name, word.length⟩

/-- The longest operator, or one character that is none. -/
def operatorLexeme (text : Text) : Lexeme :=
  match Operator.atFront? text with
  | some o => ⟨.op o, o.spelling.length⟩
  | none => ⟨.error, 1⟩

/-- The lexeme at the front of the text `c :: rest`, which starts with neither white space nor a
comment. -/
def lexeme (c : Char) (rest : Text) : Lexeme :=
  if c = '\n' ∨ c = '\r' then ⟨.newline, lineBreakLength (c :: rest)⟩
  else if StringLiteral.isQuote c then literal 0 c rest
  else if Numeral.startsAt (c :: rest) then ⟨.number, Numeral.length (c :: rest)⟩
  else if isNameStart c then wordLexeme (c :: rest)
  else operatorLexeme (c :: rest)

theorem margin_append (inComment : Bool) (width : Nat) (text : Text) :
    (margin inComment width text).passed ++ (margin inComment width text).rest = text := by
  fun_induction margin inComment width text <;> simp_all [Margin.after]

theorem gap_append (inBrackets inComment : Bool) (text : Text) :
    (gap inBrackets inComment text).1 ++ (gap inBrackets inComment text).2 = text := by
  fun_induction gap inBrackets inComment text <;> simp_all

/-- A gap never ends before a lone carriage return. -/
theorem gap_return {inBrackets inComment : Bool} {text rest : Text}
    (h : (gap inBrackets inComment text).2 = '\r' :: rest) : rest.head? = some '\n' := by
  fun_induction gap inBrackets inComment text with
  | case3 _ rest' _ => cases h; rfl
  | case8 inComment c rest' _ _ _ _ continues stops =>
    obtain ⟨rfl, rfl⟩ : c = '\r' ∧ rest' = rest := by simpa using h
    cases inComment <;> simp [continues] at stops
  | _ => simp_all

theorem literal_length_pos (marks : Nat) (quote : Char) (rest : Text) :
    0 < (literal marks quote rest).length := by
  have := StringLiteral.extent_length_pos quote rest
  simp only [literal]; omega

theorem wordLexeme_length_pos {c : Char} {rest : Text} (h : isNameStart c = true) :
    0 < (wordLexeme (c :: rest)).length := by
  have hc : isNameContinue c = true := by
    simp only [isNameStart, isNameContinue, Bool.or_eq_true] at h ⊢
    exact h.imp_left Text.isAlphanumeric_of_isAlphabetic
  have word : 0 < ((c :: rest).takeWhile isNameContinue).length := by simp [hc]
  unfold wordLexeme
  simp only
  split
  · split
    · exact literal_length_pos ..
    · exact word
  · exact word

theorem operatorLexeme_length_pos (text : Text) : 0 < (operatorLexeme text).length := by
  unfold operatorLexeme
  split
  · next o _ => exact (Operator.spelling_length o).1
  · simp

/-- A lexeme has a character, as a carriage return in front is part of a line break. -/
theorem lexeme_length_pos {c : Char} {rest : Text} (h : c = '\r' → rest.head? = some '\n') :
    0 < (lexeme c rest).length := by
  unfold lexeme
  split
  · next hc =>
    rcases hc with rfl | rfl
    · simp [lineBreakLength]
    · obtain ⟨tail, rfl⟩ := List.head?_eq_some_iff.1 (h rfl)
      simp [lineBreakLength]
  · split
    · exact literal_length_pos ..
    · split
      · next hn => exact Numeral.length_pos hn
      · split
        · next hs => exact wordLexeme_length_pos hs
        · exact operatorLexeme_length_pos _

/-- How many brackets are open after a token of this type. -/
def depthAfter : TokenKind → Nat → Nat
  | .op o, depth => o.depthAfter depth
  | _, depth => depth

end Scanner

/-- What is left to read, and what the tokens so far leave open. -/
structure Scanner where
  rest : Text
  /-- Position of `rest`. -/
  position : Position
  /-- Margins of the open blocks, innermost first; the last is the margin 0 of the source. -/
  margins : List Nat
  /-- Open brackets. -/
  depth : Nat
  /-- A new logical line begins. -/
  atLineStart : Bool
  deriving Repr

namespace Scanner

/-- Before the first character. -/
def ofText (text : Text) : Scanner := ⟨text, .start, [0], 0, true⟩

/-- What one round gives. -/
structure Round where
  tokens : List Token
  next : Scanner
  /-- The end marker was given. -/
  ended : Bool

/-- A token without text, for a block that opens or closes. -/
def layoutToken (kind : TokenKind) (at_ : Position) : Token := ⟨kind, [], [], at_⟩

/-- Open a block if the margin is deeper than the innermost block, else close the blocks that are
deeper than the margin. -/
def layout (margins : List Nat) (width : Nat) (at_ : Position) : List Token × List Nat :=
  if margins.headD 0 < width then ([layoutToken .indent at_], width :: margins)
  else
    let kept := margins.dropWhile (width < ·)
    (List.replicate (margins.length - kept.length) (layoutToken .dedent at_), kept)

/-- Read on to the next lexeme, or to the end of the source. -/
def round (s : Scanner) : Round :=
  let line : Margin := if s.atLineStart then margin false 0 s.rest else ⟨[], 0, s.rest⟩
  let lineAt := s.position.advancedBy line.passed
  let (opened, margins) :=
    if s.atLineStart && !line.rest.isEmpty then layout s.margins line.width lineAt
    else ([], s.margins)
  let (passed, rest) := gap (0 < s.depth) false line.rest
  let trivia := line.passed ++ passed
  let start := lineAt.advancedBy passed
  match rest with
  | [] =>
    let closed := List.replicate (margins.length - 1) (layoutToken .dedent start)
    ⟨opened ++ closed ++ [⟨.endMarker, [], trivia, start⟩],
      ⟨[], start, margins.drop (margins.length - 1), s.depth, s.atLineStart⟩, true⟩
  | c :: rest =>
    let found := lexeme c rest
    let value := (c :: rest).take found.length
    ⟨opened ++ [⟨found.kind, value, trivia, start⟩],
      ⟨(c :: rest).drop found.length, start.advancedBy value, margins,
        depthAfter found.kind s.depth, found.kind = .newline⟩, false⟩

/-- The tokens of at most so many rounds. -/
def tokens : Nat → Scanner → List Token
  | 0, _ => []
  | n + 1, s =>
    let r := s.round
    if r.ended then r.tokens else r.tokens ++ tokens n r.next

end Scanner

/-- The tokens of a source. Every round but the last takes a character, so there are at most one
more rounds than characters. -/
def tokenize (text : Text) : List Token := (Scanner.ofText text).tokens (text.length + 1)

/-- Tokens on demand: those of the last round that are not taken yet, and the scanner behind
them. -/
structure TokenStream where
  queued : List Token
  scanner : Scanner
  ended : Bool

namespace TokenStream

def ofText (text : Text) : TokenStream := ⟨[], .ofText text, false⟩

/-- The next token and the stream behind it; none after the end marker. -/
def next? (s : TokenStream) : Option (Token × TokenStream) :=
  match s.queued with
  | token :: queued => some (token, { s with queued })
  | [] =>
    if s.ended then none
    else
      let r := s.scanner.round
      match r.tokens with
      | token :: queued => some (token, ⟨queued, r.next, r.ended⟩)
      | [] => none

/-- Position of the next character that no round has read. -/
def position (s : TokenStream) : Position := s.scanner.position

end TokenStream

end Caret

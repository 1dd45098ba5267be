import Caret.Proofs.Brackets
import Caret.Proofs.Lexemes
/-!
# Tokens of a truncated text

What the scanner reads of a logical line depends on the text in front only, up to the next lexeme:
the gap before a lexeme and the lexeme are the same in every part of the text that holds them. So
cutting off a text behind a lexeme, or in the gap before one, leaves the lexemes before as they
were.

Results:
* `Scanner.Gap`: what is passed over between two lexemes.
* `Scanned`, `tokenize_scanned`: how the tokens of a source are read from it.
* `Lexed`: tokens that are read one after the other inside a logical line.
* `Lexed.cut`: the same tokens are read of a part of the text.
* `Lexed.tokenize`: they are the tokens of that part alone.
-/
namespace Caret

namespace Scanner

/-! ## Gaps -/

/-- So much is passed over between two lexemes, and this is left. -/
inductive Gap (inBrackets : Bool) : (inComment : Bool) → Text → Text → Prop
  | done {inComment : Bool} : Gap inBrackets inComment [] []
  | stop {inComment : Bool} {c : Char} {rest : Text} (h : passes inBrackets inComment c = none)
      (alone : inComment = false → c = '\\' → rest.head? ≠ some '\n') :
      Gap inBrackets inComment [] (c :: rest)
  | escape {passed rest : Text} (h : Gap inBrackets false passed rest) :
      Gap inBrackets false ('\\' :: '\n' :: passed) rest
  | pass {inComment inComment' : Bool} {c : Char} {passed rest : Text}
      (h : passes inBrackets inComment c = some inComment')
      (more : Gap inBrackets inComment' passed rest) :
      Gap inBrackets inComment (c :: passed) rest

variable {inBrackets inComment : Bool} {text passed rest : Text}

/-- The scanner passes over a gap. -/
theorem gap_gap (free : '\r' ∉ text) :
    Gap inBrackets inComment (gap inBrackets inComment text).1
      (gap inBrackets inComment text).2 := by
  fun_induction gap inBrackets inComment text with
  | case1 => exact .done
  | case2 | case3 | case4 | case5 => simp at free
  | case6 rest passed rest' same ih =>
    rw [same] at ih
    exact .escape (ih (by simpa using free))
  | case7 inComment c rest noReturn _ _ noFeed continues inComment' goesOn passed rest' same ih =>
    rw [same] at ih
    exact .pass goesOn (ih fun h => free (List.mem_cons_of_mem _ h))
  | case8 inComment c rest noReturn _ _ noFeed continues stops =>
    refine .stop stops fun outside backslash feed => ?_
    obtain ⟨more, rfl⟩ := List.head?_eq_some_iff.1 feed
    exact noFeed more outside backslash rfl

theorem gap_cons (free : '\r' ∉ c :: rest)
    (alone : inComment = false → c = '\\' → rest.head? ≠ some '\n') :
    gap inBrackets inComment (c :: rest) = match passes inBrackets inComment c with
      | some inComment => (c :: (gap inBrackets inComment rest).1,
          (gap inBrackets inComment rest).2)
      | none => ([], c :: rest) := by
  refine gap_step (by rintro rfl; exact free List.mem_cons_self) fun outside backslash d hd => ?_
  constructor
  · rintro rfl
    exact alone outside backslash hd
  · rintro rfl
    exact free (List.mem_cons_of_mem _ (List.mem_of_mem_head? hd))

/-- A gap is what the scanner passes over. -/
theorem Gap.gap_eq (h : Gap inBrackets inComment passed rest) (free : '\r' ∉ passed ++ rest) :
    gap inBrackets inComment (passed ++ rest) = (passed, rest) := by
  induction h with
  | done => simp [gap]
  | @stop inComment c rest none alone =>
    rw [List.nil_append, gap_cons free alone, none]
  | escape _ ih =>
    rw [List.cons_append, List.cons_append, gap, ih (by simpa using free)]
  | @pass inComment inComment' c passed rest goesOn _ ih =>
    have noReturn : '\r' ∉ passed ++ rest := fun h => free (List.mem_cons_of_mem _ h)
    rw [List.cons_append] at free ⊢
    rw [gap_cons free, goesOn]
    · dsimp only
      rw [ih noReturn]
    · rintro rfl rfl
      have none : passes inBrackets false '\\' = Option.none := by cases inBrackets <;> rfl
      rw [none] at goesOn
      cases goesOn

/-- What follows a gap matters by its first character only. -/
theorem Gap.front {c : Char} {rest' : Text} (h : Gap inBrackets inComment passed (c :: rest))
    (noEscape : c ≠ '\\') : Gap inBrackets inComment passed (c :: rest') := by
  generalize hr : c :: rest = r at h
  induction h with
  | done => cases hr
  | stop none =>
    cases hr
    exact .stop none fun _ backslash => absurd backslash noEscape
  | escape _ ih => exact .escape (ih hr)
  | pass goesOn _ ih => exact .pass goesOn (ih hr)

/-- A gap is one at the end of a text, too. -/
theorem Gap.end_ (h : Gap inBrackets inComment passed rest) :
    Gap inBrackets inComment passed [] := by
  induction h with
  | done => exact .done
  | stop => exact .done
  | escape _ ih => exact .escape ih
  | pass goesOn _ ih => exact .pass goesOn ih

/-- Without the spaces and tabs at its end a gap is one. -/
theorem Gap.trim {padding : Text} (h : Gap inBrackets inComment (passed ++ padding) rest)
    (blank : ∀ c ∈ padding, c = ' ' ∨ c = '\t') : Gap inBrackets inComment passed [] := by
  generalize hr : passed ++ padding = whole at h
  induction h generalizing passed with
  | done | stop =>
    obtain ⟨rfl, -⟩ := List.append_eq_nil_iff.1 hr
    exact .done
  | escape _ ih =>
    match passed with
    | [] => exact .done
    | [d] =>
      obtain ⟨-, line⟩ := List.cons.inj hr
      have line : padding = _ := line
      exact absurd (blank '\n' (by rw [line]; exact List.mem_cons_self)) (by decide)
    | d :: e :: passed =>
      obtain ⟨rfl, tail⟩ := List.cons.inj hr
      obtain ⟨rfl, more⟩ := List.cons.inj tail
      exact .escape (ih more)
  | pass goesOn _ ih =>
    cases passed with
    | nil => exact .done
    | cons d passed =>
      obtain ⟨rfl, more⟩ := List.cons.inj hr
      exact .pass goesOn (ih more)

/-- Where a gap ends, no gap begins, unless at a line end. -/
theorem Gap.stops {c : Char} (h : Gap inBrackets inComment passed (c :: rest))
    (noFeed : c ≠ '\n') (inBrackets' : Bool) : passes inBrackets' false c = none := by
  generalize hr : c :: rest = r at h
  induction h with
  | done => cases hr
  | @stop inComment d rest none =>
    cases hr
    unfold passes at none ⊢
    rw [if_neg noFeed] at none ⊢
    split at none
    · cases none
    · exact none
  | escape _ ih => exact ih hr
  | pass goesOn _ ih => exact ih hr

end Scanner

/-! ## Tokens of a source -/

/-- The tokens are read from the text one after the other, so many brackets being open, and at a
line start or not. -/
inductive Scanned : (depth : Nat) → (lineStart : Bool) → Text → List Token → Prop
  | block {depth : Nat} {lineStart : Bool} {text : Text} {t : Token} {ts : List Token}
      (h : t.IsLayout) (more : Scanned depth lineStart text ts) :
      Scanned depth lineStart text (t :: ts)
  /-- At a line start blank lines and the margin are skipped. -/
  | lexeme {depth : Nat} {lineStart : Bool} {skipped line passed tail : Text} {c : Char} {t : Token}
      {ts : List Token} (start : lineStart = false → skipped = [])
      (gap : Scanner.gap (0 < depth) false line = (passed, c :: tail))
      (trivia : t.trivia = skipped ++ passed) (kind : t.kind = (Scanner.lexeme c tail).kind)
      (value : t.value = (c :: tail).take (Scanner.lexeme c tail).length)
      (more : Scanned (Scanner.depthAfter t.kind depth) (t.kind = .newline)
        ((c :: tail).drop (Scanner.lexeme c tail).length) ts) :
      Scanned depth lineStart (skipped ++ line) (t :: ts)
  | last {depth : Nat} {lineStart : Bool} {text : Text} {t : Token} (marker : t.kind = .endMarker) :
      Scanned depth lineStart text [t]
  | out {depth : Nat} {lineStart : Bool} {text : Text} : Scanned depth lineStart text []

variable {depth : Nat} {lineStart : Bool} {text rest : Text} {t : Token} {ts us : List Token}

/-- Block tokens in front have no text. -/
theorem Scanned.blocks (h : ∀ u ∈ us, u.IsLayout) (more : Scanned depth lineStart text ts) :
    Scanned depth lineStart text (us ++ ts) := by
  induction us with
  | nil => exact more
  | cons u us ih =>
    exact .block (h u List.mem_cons_self) (ih fun v hv => h v (List.mem_cons_of_mem _ hv))

namespace Scanner

/-- What a round reads, and the rounds after it. -/
theorem round_scanned (s : Scanner) {ts : List Token}
    (more : s.round.ended = false →
      Scanned s.round.next.depth s.round.next.atLineStart s.round.next.rest ts)
    (done : s.round.ended = true → ts = []) :
    Scanned s.depth s.atLineStart s.rest (s.round.tokens ++ ts) := by
  obtain ⟨skipped, line, passed, whole, start, between, trivia⟩ := s.approach_gap
  obtain ⟨_, -, blocks⟩ := s.approach_isLayout
  have opened : ∀ t ∈ s.approach.blocks, t.IsLayout := fun t ht => (blocks t ht).1
  cases hrest : s.approach.rest with
  | nil =>
    rw [round_last hrest] at done ⊢
    rw [done rfl, List.append_nil, List.append_assoc]
    refine .blocks opened (.blocks (fun u hu => ?_) (.last rfl))
    rw [List.eq_of_mem_replicate hu]
    exact .inr rfl
  | cons c tail =>
    rw [round_lexeme hrest] at more ⊢
    rw [hrest] at between
    rw [List.append_assoc, List.singleton_append, whole]
    exact .blocks opened (.lexeme start between trivia rfl rfl (more rfl))

theorem tokens_scanned (n : Nat) (s : Scanner) :
    Scanned s.depth s.atLineStart s.rest (s.tokens n) := by
  induction n generalizing s with
  | zero => exact .out
  | succ n ih =>
    rw [tokens]
    cases ended : s.round.ended with
    | true =>
      have all : Scanned s.depth s.atLineStart s.rest (s.round.tokens ++ []) :=
        s.round_scanned (fun h => by rw [ended] at h; cases h) fun _ => rfl
      simpa using all
    | false =>
      exact s.round_scanned (fun _ => ih s.round.next) fun h => by rw [ended] at h; cases h

end Scanner

theorem tokenize_scanned (text : Text) : Scanned 0 true text (tokenize text) :=
  Scanner.tokens_scanned _ (Scanner.ofText text)

/-- What is left to read behind the first tokens. -/
theorem Scanned.drop (h : Scanned depth lineStart text (us ++ t :: ts)) :
    ∃ lineStart' text', text = Token.concat us ++ text' ∧
      Scanned (depthBehind depth us) lineStart' text' (t :: ts) := by
  induction us generalizing depth lineStart text with
  | nil => exact ⟨lineStart, text, rfl, h⟩
  | cons u us ih =>
    generalize hl : u :: us ++ t :: ts = all at h
    cases h with
    | block layout more =>
      obtain ⟨rfl, rfl⟩ := List.cons.inj hl
      have same : Scanner.depthAfter u.kind depth = depth := by
        rcases layout.kind with kind | kind <;> rw [kind] <;> rfl
      obtain ⟨lineStart', text', rest, behind⟩ := ih more
      have none : Token.concat (u :: us) = Token.concat us := by
        rw [Token.concat_cons, layout.trivia, layout.value]
        rfl
      refine ⟨lineStart', text', by rw [none, rest], ?_⟩
      rwa [depthBehind, List.foldl_cons, same]
    | @lexeme _ _ skipped line passed tail c _ _ start gap trivia kind value more =>
      obtain ⟨rfl, rfl⟩ := List.cons.inj hl
      have whole := Scanner.gap_append (0 < depth) false line
      rw [gap] at whole
      obtain ⟨lineStart', text', rest, behind⟩ := ih more
      refine ⟨lineStart', text', ?_, behind⟩
      rw [Token.concat_cons, ← whole, trivia, value, List.append_assoc _ _ text', ← rest]
      simp
    | last =>
      obtain ⟨-, none⟩ := List.cons.inj hl
      simp at none
    | out => cases hl

/-- Only block tokens and the end marker have no text. -/
theorem Scanned.value_ne_nil (h : Scanned depth lineStart text ts) (free : '\r' ∉ text)
    (ht : t ∈ ts) (lexeme : ¬ t.IsLayout) (before : t.kind ≠ .endMarker) : t.value ≠ [] := by
  induction h with
  | block layout more ih =>
    rcases List.mem_cons.1 ht with rfl | ht
    · exact absurd layout lexeme
    · exact ih free ht
  | @lexeme depth lineStart skipped line passed tail c u ts start gap trivia kind value more ih =>
    have whole := Scanner.gap_append (0 < depth) false line
    rw [gap] at whole
    have noReturn : '\r' ∉ c :: tail :=
      fun h => free (List.mem_append_right _ (whole ▸ List.mem_append_right _ h))
    rcases List.mem_cons.1 ht with rfl | ht
    · have pos : 0 < (Scanner.lexeme c tail).length :=
        Scanner.lexeme_pos fun h => noReturn (h ▸ List.mem_cons_self)
      rw [value]
      intro none
      rw [List.take_eq_nil_iff] at none
      simp [Nat.pos_iff_ne_zero.1 pos] at none
    · exact ih (fun h => noReturn (List.mem_of_mem_drop h)) ht
  | last marker => exact absurd (List.mem_singleton.1 ht ▸ marker) before
  | out => cases ht

/-! ## Tokens inside a logical line -/

/-- The token stands inside a logical line, and has been read. -/
def Token.IsInner (t : Token) : Prop :=
  t.kind ∉ [.newline, .indent, .dedent, .endMarker, .error]

theorem Token.IsInner.not_layout (h : t.IsInner) : ¬ t.IsLayout := by
  intro block
  rcases block.kind with kind | kind <;> simp [IsInner, kind] at h

theorem Token.IsInner.kind (h : t.IsInner) : t.kind ≠ .newline ∧ t.kind ≠ .error := by
  constructor <;> (intro kind; simp [IsInner, kind] at h)

theorem Token.IsInner.first {c : Char} {tail : Text} (h : t.IsInner)
    (kind : t.kind = (Scanner.lexeme c tail).kind) : c ≠ '\n' ∧ c ≠ '\\' := by
  constructor
  · rintro rfl
    exact h.kind.1 kind
  · rintro rfl
    rw [Scanner.lexeme_backslash] at kind
    exact h.kind.2 kind

/-- The token without the text before it. -/
def Token.bare (t : Token) : Token := { t with trivia := [] }

@[simp] theorem Token.bare_value (t : Token) : t.bare.value = t.value := rfl

@[simp] theorem Token.bare_trivia (t : Token) : t.bare.trivia = [] := rfl

/-- So many brackets being open, the tokens are read one after the other inside a logical line, and
the rest is left. -/
inductive Lexed : (depth : Nat) → Text → List Token → Text → Prop
  | nil (depth : Nat) (text : Text) : Lexed depth text [] text
  | cons {depth : Nat} {tail rest : Text} {c : Char} {t : Token} {ts : List Token}
      (inner : t.IsInner) (gap : Scanner.Gap (0 < depth) false t.trivia (c :: tail))
      (kind : t.kind = (Scanner.lexeme c tail).kind)
      (value : t.value = (c :: tail).take (Scanner.lexeme c tail).length)
      (more : Lexed (Scanner.depthAfter t.kind depth)
        ((c :: tail).drop (Scanner.lexeme c tail).length) ts rest) :
      Lexed depth (t.trivia ++ c :: tail) (t :: ts) rest

/-- How a token inside a logical line is read. -/
theorem Scanned.inner (h : Scanned depth lineStart text (t :: ts)) (own : t.IsInner)
    (free : '\r' ∉ text) : ∃ skipped passed c tail, text = skipped ++ (passed ++ c :: tail) ∧
      (lineStart = false → skipped = []) ∧ Scanner.Gap (0 < depth) false passed (c :: tail) ∧
      t.trivia = skipped ++ passed ∧ t.kind = (Scanner.lexeme c tail).kind ∧
      t.value = (c :: tail).take (Scanner.lexeme c tail).length ∧
      Scanned (Scanner.depthAfter t.kind depth) false
        ((c :: tail).drop (Scanner.lexeme c tail).length) ts := by
  cases h with
  | block layout => exact absurd layout own.not_layout
  | last marker => simp [Token.IsInner, marker] at own
  | @lexeme _ _ skipped line passed tail c _ _ start gap trivia kind value more =>
    have found : Scanner.Gap (0 < depth) false _ _ :=
      Scanner.gap_gap fun h => free (List.mem_append_right _ h)
    have whole := Scanner.gap_append (0 < depth) false line
    rw [gap] at found whole
    rw [decide_eq_false own.kind.1] at more
    exact ⟨skipped, passed, c, tail, by rw [← whole], start, found, trivia, kind, value, more⟩

/-- Inside a logical line the tokens of a source are read one after the other. -/
theorem Scanned.lexed (h : Scanned depth false text (ts ++ us)) (inner : ∀ t ∈ ts, t.IsInner)
    (free : '\r' ∉ text) : ∃ rest, Lexed depth text ts rest := by
  induction ts generalizing depth text with
  | nil => exact ⟨text, .nil depth text⟩
  | cons t ts ih =>
    have own := inner t List.mem_cons_self
    rw [List.cons_append] at h
    obtain ⟨skipped, passed, c, tail, rfl, start, gap, trivia, kind, value, more⟩ :=
      h.inner own free
    obtain rfl := start rfl
    rw [List.nil_append] at free trivia ⊢
    rw [← trivia] at gap free ⊢
    have behind : '\r' ∉ (c :: tail).drop (Scanner.lexeme c tail).length :=
      fun h => free (List.mem_append_right _ (List.mem_of_mem_drop h))
    obtain ⟨rest, lexed⟩ := ih more (fun u hu => inner u (List.mem_cons_of_mem _ hu)) behind
    exact ⟨rest, .cons own gap kind value lexed⟩

/-- Without the gap before the first one they are read, too, of a line that starts there. -/
theorem Scanned.lexed_bare (h : Scanned depth lineStart text (t :: ts ++ us))
    (inner : ∀ u ∈ t :: ts, u.IsInner) (free : '\r' ∉ text) :
    ∃ bare rest, text = t.trivia ++ bare ∧ Lexed depth bare (t.bare :: ts) rest := by
  have own := inner t List.mem_cons_self
  rw [List.cons_append] at h
  obtain ⟨skipped, passed, c, tail, rfl, -, gap, trivia, kind, value, more⟩ := h.inner own free
  have behind : '\r' ∉ (c :: tail).drop (Scanner.lexeme c tail).length := fun h =>
    free (List.mem_append_right _ (List.mem_append_right _ (List.mem_of_mem_drop h)))
  obtain ⟨rest, lexed⟩ := more.lexed (fun u hu => inner u (List.mem_cons_of_mem _ hu)) behind
  obtain ⟨noFeed, noEscape⟩ := own.first kind
  have stops : Scanner.Gap (0 < depth) false [] (c :: tail) :=
    .stop (gap.stops noFeed _) fun _ backslash => absurd backslash noEscape
  exact ⟨c :: tail, rest, by rw [trivia, List.append_assoc],
    .cons (t := t.bare) own stops kind value lexed⟩

/-! ## A part of a text -/

variable {z more : Text}

theorem Lexed.text_eq (h : Lexed depth text ts rest) : text = Token.concat ts ++ rest := by
  induction h with
  | nil => rfl
  | @cons depth tail rest c t ts _ _ _ value _ ih =>
    rw [Token.concat_cons, List.append_assoc, List.append_assoc, ← ih, value,
      List.take_append_drop]

theorem Lexed.inner (h : Lexed depth text ts rest) : ∀ t ∈ ts, t.IsInner := by
  induction h with
  | nil => simp
  | cons inner _ _ _ _ ih => exact List.forall_mem_cons.2 ⟨inner, ih⟩

/-- A part of a text has no carriage return that the text does not have. -/
theorem Lexed.free_cut (h : Lexed depth text ts (z ++ more)) (free : '\r' ∉ text) :
    '\r' ∉ Token.concat ts ++ z := by
  rw [h.text_eq, ← List.append_assoc] at free
  exact fun h => free (List.mem_append_left _ h)

/-- Cutting off the text behind some tokens leaves the tokens before as they are. -/
theorem Lexed.cut (h : Lexed depth text ts (z ++ more)) (free : '\r' ∉ text) :
    Lexed depth (Token.concat ts ++ z) ts z := by
  generalize hr : z ++ more = rest at h
  induction h with
  | nil => exact .nil _ _
  | @cons depth tail rest c t ts inner gap kind value lexed ih =>
    subst hr
    have noReturn : '\r' ∉ c :: tail := fun h => free (List.mem_append_right _ h)
    have error : (Scanner.lexeme c tail).kind ≠ .error := kind ▸ inner.kind.2
    have start : c ≠ '\r' := fun h => noReturn (h ▸ List.mem_cons_self)
    -- the token and what is behind it, up to the cut
    have left := lexed.text_eq
    rw [← List.append_assoc] at left
    obtain ⟨tail', -, front, same, taken, dropped⟩ := Scanner.lexeme_upTo error start left
    have text : Token.concat (t :: ts) ++ z = t.trivia ++ c :: tail' := by
      rw [← front, ← value, ← List.append_assoc, ← List.append_assoc]
      rfl
    rw [text]
    refine .cons inner (gap.front (inner.first kind).2) (same ▸ kind) ?_ ?_
    · rw [same, taken, value]
    · rw [same, dropped]
      exact ih (fun h => noReturn (List.mem_of_mem_drop h)) rfl

/-- Before the last of the tokens is the gap that it has as its trivia. -/
theorem Lexed.before_last (h : Lexed depth text (ts ++ [t]) rest) : ∃ behind,
    Lexed depth text ts (t.trivia ++ behind) ∧
      Scanner.Gap (0 < depthBehind depth ts) false t.trivia behind := by
  induction ts generalizing depth text with
  | nil =>
    cases h with
    | cons inner gap kind value more => exact ⟨_, .nil _ _, gap⟩
  | cons u ts ih =>
    cases h with
    | cons inner gap kind value more =>
      obtain ⟨behind, front, last⟩ := ih more
      exact ⟨behind, .cons inner gap kind value front, last⟩

namespace Scanner

/-- What a round inside of a line gives. -/
theorem round_read {s : Scanner} {trivia tail : Text} {c : Char} {kind : TokenKind} {length : Nat}
    (inside : s.atLineStart = false)
    (between : gap (0 < s.depth) false s.rest = (trivia, c :: tail))
    (read : lexeme c tail = ⟨kind, length⟩) :
    s.round = ⟨[⟨kind, (c :: tail).take length, trivia, s.position.advancedBy trivia⟩],
      ⟨(c :: tail).drop length,
        (s.position.advancedBy trivia).advancedBy ((c :: tail).take length), s.margins,
        depthAfter kind s.depth, decide (kind = .newline)⟩, false⟩ := by
  unfold round
  simp only [inside, Bool.false_eq_true, if_false, Bool.false_and, between, read,
    Position.advancedBy_nil, List.nil_append]

/-- A round inside a logical line, before the end of the text. -/
theorem round_inside {s : Scanner} {passed tail : Text} {c : Char} (inside : s.atLineStart = false)
    (gap_ : gap (0 < s.depth) false s.rest = (passed, c :: tail)) :
    ∃ t next, s.round = ⟨[t], next, false⟩ ∧
      Parser.face t = ((lexeme c tail).kind, (c :: tail).take (lexeme c tail).length) ∧
      next.rest = (c :: tail).drop (lexeme c tail).length ∧
      next.depth = depthAfter (lexeme c tail).kind s.depth ∧
      next.atLineStart = decide ((lexeme c tail).kind = .newline) ∧ next.margins = s.margins := by
  exact ⟨_, _, round_read inside gap_ rfl, rfl, rfl, rfl, rfl, rfl⟩

/-- A round inside a logical line, at the end of the text, where no block is open. -/
theorem round_end {s : Scanner} {passed : Text} (inside : s.atLineStart = false)
    (margins : s.margins = [0]) (gap_ : gap (0 < s.depth) false s.rest = (passed, [])) :
    ∃ t, s.round.tokens = [t] ∧ t.kind = .endMarker ∧ s.round.ended = true := by
  unfold round
  simp only [inside, Bool.false_eq_true, if_false, Bool.false_and, gap_, margins]
  exact ⟨_, rfl, rfl, trivial⟩

/-- Tokens that are read inside a logical line, and a gap up to the end of the text. -/
theorem tokens_lexed {s : Scanner} {n : Nat} (h : Lexed s.depth s.rest ts rest)
    (gap_ : Gap (0 < depthBehind s.depth ts) false rest []) (free : '\r' ∉ s.rest)
    (inside : s.atLineStart = false) (margins : s.margins = [0]) (rounds : s.rest.length < n) :
    ∃ body last, s.tokens n = body ++ [last] ∧ last.kind = .endMarker ∧
      body.map Parser.face = ts.map Parser.face := by
  induction ts generalizing s n with
  | nil =>
    generalize hr : s.rest = text at h
    cases h
    have all := gap_.gap_eq (by rw [List.append_nil, ← hr]; exact free)
    rw [List.append_nil, ← hr] at all
    obtain ⟨n, rfl⟩ : ∃ m, n = m + 1 := ⟨n - 1, by omega⟩
    obtain ⟨last, tokens, marker, ended⟩ := round_end inside margins all
    exact ⟨[], last, by rw [Scanner.tokens, if_pos ended, tokens]; rfl, marker, rfl⟩
  | cons t ts ih =>
    generalize hr : s.rest = text at h
    cases h with
    | @cons _ tail _ c _ _ inner gap kind value more =>
      have all := gap.gap_eq (hr ▸ free)
      rw [← hr] at all
      obtain ⟨n, rfl⟩ : ∃ m, n = m + 1 := ⟨n - 1, by omega⟩
      obtain ⟨u, next, round, face, rest', depth, line, blocks⟩ := round_inside inside all
      have goesOn : s.round.ended = false := by rw [round]
      have shorter := round_shortens goesOn
      have noLine : (lexeme c tail).kind ≠ .newline := kind ▸ inner.kind.1
      have noReturn : '\r' ∉ c :: tail := fun h => free (hr ▸ List.mem_append_right _ h)
      rw [← kind] at depth
      rw [round] at shorter
      rw [← rest', ← depth] at more
      obtain ⟨body, last, tokens, marker, faces⟩ := ih (n := n) more
        (by rw [depth]; exact gap_) (fun h => noReturn (List.mem_of_mem_drop (rest' ▸ h)))
        (by rw [line, decide_eq_false noLine]) (blocks.trans margins)
        (by dsimp only at shorter; omega)
      refine ⟨u :: body, last, ?_, marker, ?_⟩
      · rw [Scanner.tokens, if_neg (by rw [goesOn]; decide), round]
        dsimp only
        rw [tokens]
        rfl
      · rw [List.map_cons, List.map_cons, faces, face, ← kind, ← value]
        rfl

/-- Nothing is skipped before a character that ends a gap, unless at a line end. -/
theorem margin_stops {c : Char} {tail : Text} (stops : passes false false c = none)
    (noFeed : c ≠ '\n') : margin false 0 (c :: tail) = ⟨[], 0, c :: tail⟩ := by
  unfold passes at stops
  rw [if_neg noFeed] at stops
  simp only [Bool.false_eq_true, if_false] at stops
  split at stops
  · cases stops
  · next noComment =>
    split at stops
    · cases stops
    · next visible =>
      simp only [not_or] at visible
      rw [margin]
      · simp [noFeed, noComment, visible]
      · intro rest return_
        exact absurd return_ visible.2.2.2

/-- A lexeme at the front of a text is read as if the text stood inside a logical line. -/
theorem tokens_first {c : Char} {tail : Text} (gap_ : Gap false false [] (c :: tail))
    (free : '\r' ∉ c :: tail) (noFeed : c ≠ '\n') (n : Nat) :
    (ofText (c :: tail)).tokens n =
      ({ ofText (c :: tail) with atLineStart := false } : Scanner).tokens n := by
  have all := gap_.gap_eq free
  rw [List.nil_append] at all
  have skips : margin false 0 (c :: tail) = ⟨[], 0, c :: tail⟩ :=
    margin_stops (gap_.stops noFeed false) noFeed
  have same : (ofText (c :: tail)).round =
      ({ ofText (c :: tail) with atLineStart := false } : Scanner).round := by
    unfold round ofText
    simp [skips, all, layout]
  cases n with
  | zero => rfl
  | succ n => rw [Scanner.tokens, Scanner.tokens, same]

end Scanner

/-- Tokens that are read inside a logical line, no gap before the first of them and a gap up to the
end of the text, are the tokens of the text, but for their places and trivia. -/
theorem Lexed.tokenize (h : Lexed 0 text (t :: ts) rest) (bare : t.trivia = [])
    (gap : Scanner.Gap (0 < depthBehind 0 (t :: ts)) false rest []) (free : '\r' ∉ text) :
    ∃ body last, tokenize text = body ++ [last] ∧ last.kind = .endMarker ∧
      body.map Parser.face = (t :: ts).map Parser.face := by
  have lexed := h
  cases h with
  | @cons _ tail _ c _ _ inner first kind value more =>
    rw [bare, List.nil_append] at lexed free ⊢
    rw [bare] at first
    rw [Caret.tokenize, Scanner.tokens_first first free (inner.first kind).1]
    exact Scanner.tokens_lexed lexed gap free rfl rfl (Nat.lt_succ_self _)

end Caret

import Caret.Proofs.Lexemes
/-!
# Line breaks of one character and of two

A text that ends its lines with line feeds is also written with a carriage return before each of
them. Margins and gaps are passed over alike, names, numbers and operators have no line breaks in
them, and a literal in three quotes goes on to the same place. But in a literal in one pair of
quotes a backslash takes just one character with it. An escaped line feed is that one; of an escaped
line break of two characters the line feed is left, the literal does not close, and its quote is an
error.

Results:
* `withReturns`: the text with the carriage returns.
* `Scanner.margin_withReturns`, `Scanner.gap_withReturns`: what stands between lexemes.
* `count_withReturns`: what is counted of solid characters comes before the first line break.
* `StringLiteral.extent_triple`, `StringLiteral.extent_single`: literals.
* `Scanner.lexeme_withReturns`: lexemes, by whether they are a literal of the second kind that goes
  on behind a line end.
* `Scanner.round_withReturns`: rounds, by whether they read one.
* `tokenize_withReturns`: the tokens are the same if and only if none is one.
-/
namespace Caret

/-- The text with a carriage return before every line feed. -/
def withReturns (text : Text) : Text :=
  text.flatMap fun c => if c = '\n' then ['\r', '\n'] else [c]

variable {text rest : Text} {c quote : Char} {n read : Nat}

/-! ## Texts -/

@[simp] theorem withReturns_nil : withReturns [] = [] := rfl

theorem withReturns_feed (text : Text) :
    withReturns ('\n' :: text) = '\r' :: '\n' :: withReturns text := rfl

theorem withReturns_cons (h : c ≠ '\n') (text : Text) :
    withReturns (c :: text) = c :: withReturns text := by
  rw [withReturns, List.flatMap_cons, if_neg h]
  rfl

@[simp] theorem withReturns_append (p q : Text) :
    withReturns (p ++ q) = withReturns p ++ withReturns q :=
  List.flatMap_append

theorem withReturns_flat (h : '\n' ∉ text) : withReturns text = text := by
  induction text with
  | nil => rfl
  | cons c text ih =>
    rw [withReturns_cons (by rintro rfl; exact h List.mem_cons_self),
      ih fun more => h (List.mem_cons_of_mem _ more)]

theorem isEmpty_withReturns (text : Text) : (withReturns text).isEmpty = text.isEmpty := by
  cases text with
  | nil => rfl
  | cons c text =>
    by_cases feed : c = '\n'
    · subst feed
      rfl
    · rw [withReturns_cons feed]
      rfl

/-- The line breaks move on as far as the line feeds. -/
theorem advancedBy_withReturns (pos : Position) (text : Text) :
    pos.advancedBy (withReturns text) = pos.advancedBy text := by
  induction text generalizing pos with
  | nil => rfl
  | cons c text ih =>
    by_cases feed : c = '\n'
    · subst feed
      rw [withReturns_feed]
      exact ih _
    · rw [withReturns_cons feed]
      exact ih _

theorem withReturns_split (text : Text) (n : Nat) :
    withReturns text = withReturns (text.take n) ++ withReturns (text.drop n) := by
  rw [← withReturns_append, List.take_append_drop]

theorem take_withReturns (text : Text) (n : Nat) :
    (withReturns text).take (withReturns (text.take n)).length = withReturns (text.take n) := by
  rw [withReturns_split text n, List.take_left]

theorem drop_withReturns (text : Text) (n : Nat) :
    (withReturns text).drop (withReturns (text.take n)).length = withReturns (text.drop n) := by
  rw [withReturns_split text n, List.drop_left]

/-- Up to the first line break the texts are the same. -/
theorem take_flat (h : '\n' ∉ text.take n) : (withReturns text).take n = text.take n := by
  rcases Nat.le_total n text.length with le | ge
  · have front := take_withReturns text n
    rwa [withReturns_flat h, List.length_take_of_le le] at front
  · rw [List.take_of_length_le ge] at h ⊢
    rw [withReturns_flat h, List.take_of_length_le ge]

theorem drop_flat (h : '\n' ∉ text.take n) :
    (withReturns text).drop n = withReturns (text.drop n) := by
  rcases Nat.le_total n text.length with le | ge
  · have behind := drop_withReturns text n
    rwa [withReturns_flat h, List.length_take_of_le le] at behind
  · rw [List.take_of_length_le ge] at h
    rw [withReturns_flat h, List.drop_of_length_le ge]
    rfl

/-- The first line break of a text stands where it stood, and begins with a carriage return. -/
theorem return_mem_take (h : '\n' ∈ text.take n) : '\r' ∈ (withReturns text).take n := by
  obtain ⟨p, q, split, before⟩ := List.eq_append_cons_of_mem h
  have length := congrArg List.length split
  rw [List.length_take, List.length_append, List.length_cons] at length
  obtain ⟨k, room⟩ : ∃ k, n - p.length = k + 1 := ⟨n - p.length - 1, by omega⟩
  rw [withReturns_split text n, split, withReturns_append, withReturns_flat before,
    withReturns_feed, List.append_assoc, List.take_append, room]
  simp

/-- What is asked of the first character, if line breaks do not pass. -/
theorem head?_withReturns {accept : Char → Bool} (feed : accept '\n' = false)
    (return_ : accept '\r' = false) (text : Text) :
    (withReturns text).head?.any accept = text.head?.any accept := by
  cases text with
  | nil => rfl
  | cons c text =>
    by_cases line : c = '\n'
    · subst line
      simp [withReturns_feed, feed, return_]
    · rw [withReturns_cons line]
      rfl

theorem head?_flat (h : text.head? ≠ some '\n') : (withReturns text).head? = text.head? := by
  cases text with
  | nil => rfl
  | cons c text =>
    rw [withReturns_cons (by rintro rfl; exact h rfl), List.head?_cons, List.head?_cons]

/-! ## Margins and gaps -/

namespace Scanner

/-- The margin with a carriage return before every line feed. -/
def Margin.withReturns (m : Margin) : Margin :=
  ⟨Caret.withReturns m.passed, m.width, Caret.withReturns m.rest⟩

theorem Margin.withReturns_after (h : c ≠ '\n') (m : Margin) :
    (m.after c).withReturns = m.withReturns.after c := by
  simp only [Margin.withReturns, Margin.after, withReturns_cons h]

theorem margin_withReturns (inComment : Bool) (width : Nat) (free : '\r' ∉ text) :
    margin inComment width (withReturns text) = (margin inComment width text).withReturns := by
  induction text generalizing inComment width with
  | nil => rfl
  | cons c text ih =>
    have free' : '\r' ∉ text := fun h => free (List.mem_cons_of_mem _ h)
    have noReturn : c ≠ '\r' := by
      rintro rfl
      exact free List.mem_cons_self
    rw [margin_step noReturn]
    by_cases feed : c = '\n'
    · subst feed
      rw [withReturns_feed, margin, ih _ _ free']
      rfl
    · rw [withReturns_cons feed, margin_step noReturn, if_neg feed, if_neg feed]
      simp only [ih _ _ free', ← Margin.withReturns_after feed]
      split_ifs <;> first | rfl | simp [Margin.withReturns, withReturns_cons feed]

theorem gap_withReturns (inBrackets inComment : Bool) (free : '\r' ∉ text) :
    gap inBrackets inComment (withReturns text) =
      (withReturns (gap inBrackets inComment text).1,
        withReturns (gap inBrackets inComment text).2) := by
  fun_induction gap inBrackets inComment text with
  | case1 => simp [gap]
  | case2 | case3 | case4 | case5 => simp at free
  | case6 rest passed rest' same ih =>
    rw [withReturns_cons (by decide), withReturns_feed, gap, ih (by simpa using free), same]
    rfl
  | case7 inComment c rest noReturn _ _ noFeed continues inComment' goesOn passed rest' same ih =>
    have goesOn : passes inBrackets inComment c = some inComment' := goesOn
    have more := ih fun h => free (List.mem_cons_of_mem _ h)
    by_cases feed : c = '\n'
    · -- a line feed that is passed over is one between brackets
      subst feed
      obtain ⟨rfl, rfl⟩ : inBrackets = true ∧ inComment' = false := by
        cases inBrackets <;> simp [passes] at goesOn
        exact ⟨rfl, goesOn⟩
      rw [withReturns_feed, gap, more, same]
      rfl
    · rw [withReturns_cons feed, gap_step, goesOn]
      · dsimp only
        rw [more, same, withReturns_cons feed]
      · rintro rfl
        exact free List.mem_cons_self
      · rintro rfl rfl
        cases inBrackets <;> simp [passes] at goesOn
  | case8 inComment c rest noReturn _ _ noFeed continues stops =>
    have stops : passes inBrackets inComment c = none := stops
    by_cases feed : c = '\n'
    · subst feed
      obtain rfl : inBrackets = false := by
        cases inBrackets <;> simp [passes] at stops
        rfl
      rw [withReturns_feed, gap]
      rfl
    · rw [withReturns_cons feed, gap_step, stops]
      · rfl
      · rintro rfl
        exact free List.mem_cons_self
      · rintro outside rfl d hd
        have noLine : rest.head? ≠ some '\n' := fun line => by
          obtain ⟨more, rfl⟩ := List.head?_eq_some_iff.1 line
          exact noFeed more outside rfl rfl
        rw [head?_flat noLine] at hd
        refine ⟨fun line => noLine (line ▸ hd), ?_⟩
        rintro rfl
        exact free (List.mem_cons_of_mem _ (List.mem_of_mem_head? hd))

end Scanner

/-! ## Lexemes without line breaks -/

/-- What is counted of solid characters at the front of a text comes before the first line break. -/
theorem count_withReturns {f : Text → Nat} (stable : Stable f) (solid : Solid f) (text : Text) :
    f (withReturns text) = f text ∧ '\n' ∉ text.take (f text) := by
  have flat : '\n' ∉ text.take (f text) := by
    intro line
    obtain ⟨k, found⟩ := List.mem_iff_getElem?.1 line
    rw [List.getElem?_take] at found
    split at found
    · next counted =>
      obtain ⟨c, same, visible⟩ := solid text k counted
      rw [found] at same
      cases same
      exact visible (by decide)
    · cases found
  refine ⟨?_, flat⟩
  -- what comes before the first line break tells the count, as no line break is counted
  by_cases line : '\n' ∈ text
  · obtain ⟨p, q, rfl, before⟩ := List.eq_append_cons_of_mem line
    have short {d : Char} {more : Text} (blank : ¬ IsSolid d) : f (p ++ d :: more) ≤ p.length := by
      refine Nat.le_of_not_lt fun longer => ?_
      obtain ⟨c, found, visible⟩ := solid _ _ longer
      rw [List.getElem?_append_right (Nat.le_refl _), Nat.sub_self] at found
      cases found
      exact blank visible
    rw [withReturns_append, withReturns_flat before, withReturns_feed,
      ← stable p _ (short (by decide)), ← stable p _ (short (by decide))]
  · rw [withReturns_flat line]

namespace Numeral

theorem startsAt_withReturns (text : Text) : startsAt (withReturns text) = startsAt text := by
  cases text with
  | nil => rfl
  | cons c rest =>
    by_cases feed : c = '\n'
    · subst feed
      rfl
    · rw [withReturns_cons feed, startsAt, startsAt, head?_withReturns rfl rfl]

end Numeral

namespace Operator

/-- No operator has a line break. -/
theorem ofText?_line (line : c ∈ text) (blank : ¬ IsSolid c) : ofText? text = none := by
  cases found : ofText? text with
  | none => rfl
  | some o =>
    rw [ofText?_eq_some] at found
    exact absurd (solid_spelling o c (found ▸ line)) blank

theorem atFront?_withReturns (text : Text) : atFront? (withReturns text) = atFront? text := by
  have same (n : Nat) : ofText? ((withReturns text).take n) = ofText? (text.take n) := by
    by_cases line : '\n' ∈ text.take n
    · rw [ofText?_line line (by decide), ofText?_line (return_mem_take line) (by decide)]
    · rw [take_flat line]
  rw [atFront?, atFront?]
  simp only [same]

end Operator

/-! ## String literals -/

namespace StringLiteral

theorem ne_of_isQuote (quoted : isQuote quote = true) :
    quote ≠ '\n' ∧ quote ≠ '\r' := by
  constructor <;> (rintro rfl; exact absurd quoted (by decide))

theorem plain_withReturns (h : Plain c rest) : Plain c (withReturns rest) := by
  intro d more backslash split
  cases rest with
  | nil => cases split
  | cons e rest => exact h e rest backslash rfl

theorem take_behind (h : read < n) (c : Char) (rest : Text) :
    (c :: rest).take (n - read) = c :: rest.take (n - (read + 1)) := by
  rw [show n - read = n - (read + 1) + 1 by omega, List.take_succ_cons]

/-- A literal on one line ends where it ended, unless it went on behind an escaped line feed: of the
two characters that stand there now a backslash takes the first only. -/
theorem closeAt_withReturns (quoted : isQuote quote = true) (free : '\r' ∉ text) :
    closeAt quote (withReturns text) read =
      (closeAt quote text read).filter fun n => !(text.take (n - read)).contains '\n' := by
  obtain ⟨noFeed, noReturn⟩ := ne_of_isQuote quoted
  have breaks (text : Text) (read : Nat) : closeAt quote ('\n' :: text) read = none ∧
      closeAt quote ('\r' :: text) read = none := by
    constructor <;> (rw [closeAt_cons (by simp [Plain])]; simp)
  fun_induction closeAt quote text read with
  | case1 => rfl
  | case2 d rest read ih =>
    have more := ih fun h => free (by simp [h])
    have front {n : Nat} (h : closeAt quote rest (read + 2) = some n) :
        ('\\' :: d :: rest).take (n - read) = '\\' :: d :: rest.take (n - (read + 2)) := by
      have := lt_of_closeAt h
      rw [take_behind (by omega), take_behind (by omega)]
    rw [withReturns_cons (by decide)]
    by_cases feed : d = '\n'
    · -- the backslash takes the carriage return, and the line feed ends the line
      subst feed
      rw [withReturns_feed, closeAt, (breaks _ _).1]
      cases found : closeAt quote rest (read + 2) with
      | none => rfl
      | some n => simp [Option.filter, front found]
    · rw [withReturns_cons feed, closeAt, more]
      cases found : closeAt quote rest (read + 2) with
      | none => rfl
      | some n => simp [Option.filter, front found, Ne.symm feed]
  | case3 c rest read alone line =>
    rcases line with rfl | rfl
    · exact (breaks _ _).2
    · simp at free
  | case4 rest read alone line =>
    rw [withReturns_cons noFeed, closeAt_cons (plain_withReturns alone), if_neg line, if_pos rfl]
    simp [Option.filter, Ne.symm noFeed]
  | case5 c rest read alone line other ih =>
    have more := ih fun h => free (List.mem_cons_of_mem _ h)
    rw [not_or] at line
    rw [withReturns_cons line.1, closeAt_cons (plain_withReturns alone), if_neg (by simp [line]),
      if_neg other, more]
    cases found : closeAt quote rest (read + 1) with
    | none => rfl
    | some n =>
      have := lt_of_closeAt found
      rw [Option.filter, Option.filter, take_behind (by omega)]
      simp [Ne.symm line.1]

theorem take_two_withReturns (quoted : isQuote quote = true) (text : Text) :
    (withReturns text).take 2 = [quote, quote] ↔ text.take 2 = [quote, quote] := by
  obtain ⟨noFeed, noReturn⟩ := ne_of_isQuote quoted
  by_cases line : '\n' ∈ text.take 2
  · have return_ := return_mem_take line
    constructor
    · intro h
      rw [h] at return_
      simp [Ne.symm noReturn] at return_
    · intro h
      rw [h] at line
      simp [Ne.symm noFeed] at line
  · rw [take_flat line]

/-- A literal in three quotes ends behind the same text. -/
theorem closeTripleAt_withReturns (quoted : isQuote quote = true) (text : Text) (read read' : Nat) :
    closeTripleAt quote (withReturns text) read' = (closeTripleAt quote text read).map fun n =>
      read' + (withReturns (text.take (n - read))).length := by
  obtain ⟨noFeed, noReturn⟩ := ne_of_isQuote quoted
  -- a line break is no end, be it of one character or of two
  have breaks (text : Text) (read : Nat) : closeTripleAt quote ('\n' :: text) read =
      closeTripleAt quote text (read + 1) ∧ closeTripleAt quote ('\r' :: text) read =
      closeTripleAt quote text (read + 1) := by
    constructor <;>
      (rw [closeTripleAt_cons (by simp [Plain])]; simp [Ne.symm noFeed, Ne.symm noReturn])
  fun_induction closeTripleAt quote text read generalizing read' with
  | case1 => rfl
  | case2 d rest read ih =>
    have front {n : Nat} (h : closeTripleAt quote rest (read + 2) = some n) :
        ('\\' :: d :: rest).take (n - read) = '\\' :: d :: rest.take (n - (read + 2)) := by
      have := lt_of_closeTripleAt h
      rw [take_behind (by omega), take_behind (by omega)]
    rw [withReturns_cons (by decide)]
    by_cases feed : d = '\n'
    · -- here the line feed that is left is a character like others
      subst feed
      rw [withReturns_feed, closeTripleAt, (breaks _ _).1, ih]
      refine Option.map_congr fun n found => ?_
      rw [front found, withReturns_cons (by decide), withReturns_feed]
      simp only [List.length_cons]
      omega
    · rw [withReturns_cons feed, closeTripleAt, ih]
      refine Option.map_congr fun n found => ?_
      rw [front found, withReturns_cons (by decide), withReturns_cons feed]
      simp only [List.length_cons]
      omega
  | case3 c rest read alone close =>
    obtain ⟨rfl, close⟩ := close
    rw [withReturns_cons noFeed, closeTripleAt_cons (plain_withReturns alone),
      if_pos ⟨rfl, (take_two_withReturns quoted rest).2 close⟩]
    rw [Option.map_some, Nat.add_sub_cancel_left, List.take_succ_cons, close, withReturns_flat]
    · rfl
    · simp [Ne.symm noFeed]
  | case4 c rest read alone other ih =>
    have front {n : Nat} (h : closeTripleAt quote rest (read + 1) = some n) :
        (c :: rest).take (n - read) = c :: rest.take (n - (read + 1)) := by
      have := lt_of_closeTripleAt h
      exact take_behind (by omega) c rest
    by_cases feed : c = '\n'
    · subst feed
      rw [withReturns_feed, (breaks _ _).2, (breaks _ _).1, ih]
      refine Option.map_congr fun n found => ?_
      rw [front found, withReturns_feed]
      simp only [List.length_cons]
      omega
    · rw [withReturns_cons feed, closeTripleAt_cons (plain_withReturns alone),
        if_neg (by rwa [take_two_withReturns quoted]), ih]
      refine Option.map_congr fun n found => ?_
      rw [front found, withReturns_cons feed]
      simp only [List.length_cons]
      omega

/-- A literal in three quotes is read up to the same place. -/
theorem extent_triple (quoted : isQuote quote = true) (triple : rest.take 2 = [quote, quote]) :
    extent quote (withReturns rest) = ⟨(extent quote rest).closed,
      (withReturns ((quote :: rest).take (extent quote rest).length)).length⟩ := by
  obtain ⟨noFeed, -⟩ := ne_of_isQuote quoted
  obtain ⟨body, rfl⟩ : ∃ body, rest = quote :: quote :: body :=
    ⟨rest.drop 2, by rw [← List.take_append_drop 2 rest, triple]; rfl⟩
  have front (k : Nat) : (withReturns ((quote :: quote :: quote :: body).take (k + 3))).length =
      3 + (withReturns (body.take k)).length := by
    simp only [List.take_succ_cons, withReturns_cons noFeed, List.length_cons]
    omega
  have inner : (withReturns (quote :: quote :: body)).drop 2 = withReturns body := by
    simp only [withReturns_cons noFeed, List.drop_succ_cons, List.drop_zero]
  unfold extent
  rw [if_pos triple, if_pos ((take_two_withReturns quoted _).2 triple), inner]
  dsimp only
  rw [show (quote :: quote :: body).drop 2 = body from rfl,
    closeTripleAt_withReturns quoted body 3 3]
  cases found : closeTripleAt quote body 3 with
  | none =>
    dsimp only
    rw [Option.map_none, Nat.add_comm 3 body.length, front, List.take_length]
  | some n =>
    have := lt_of_closeTripleAt found
    obtain ⟨k, rfl⟩ : ∃ k, n = k + 3 := ⟨n - 3, by omega⟩
    dsimp only
    rw [Option.map_some, front, Nat.add_sub_cancel]

/-- A literal in one pair of quotes is read up to the same place if it has no line break, and does
not close if it has one. -/
theorem extent_single (quoted : isQuote quote = true) (free : '\r' ∉ rest)
    (single : rest.take 2 ≠ [quote, quote]) :
    extent quote (withReturns rest) =
      if '\n' ∈ (quote :: rest).take (extent quote rest).length then ⟨false, 1⟩
      else extent quote rest := by
  obtain ⟨noFeed, -⟩ := ne_of_isQuote quoted
  unfold extent
  rw [if_neg single, if_neg (by rwa [ne_eq, ← take_two_withReturns quoted] at single),
    closeAt_withReturns quoted free]
  cases found : closeAt quote rest 1 with
  | none => simp [Ne.symm noFeed]
  | some n =>
    have := lt_of_closeAt found
    obtain ⟨k, rfl⟩ : ∃ k, n = k + 1 := ⟨n - 1, by omega⟩
    dsimp only
    rw [Option.filter, Nat.add_sub_cancel, List.take_succ_cons]
    by_cases line : '\n' ∈ rest.take k
    · simp [line]
    · simp [line, Ne.symm noFeed]

/-- A literal on one line that does not close is its quote. -/
theorem closed_of_line (quoted : isQuote quote = true) (single : rest.take 2 ≠ [quote, quote])
    (line : '\n' ∈ (quote :: rest).take (extent quote rest).length) :
    (extent quote rest).closed = true := by
  unfold extent at line ⊢
  rw [if_neg single] at line ⊢
  cases found : closeAt quote rest 1 with
  | some n => rfl
  | none =>
    rw [found] at line
    exact absurd (List.mem_singleton.1 line).symm (ne_of_isQuote quoted).1

/-- A literal that is written out opens with three quotes. -/
def opensTriple (value : Text) : Bool :=
  match value.dropWhile fun c => !isQuote c with
  | quote :: rest => rest.take 2 == [quote, quote]
  | [] => false

theorem opensTriple_literal {word : Text} (plain : ∀ c ∈ word, isQuote c = false)
    (quoted : isQuote quote = true) (closed : (extent quote rest).closed = true) :
    opensTriple (word ++ (quote :: rest).take (extent quote rest).length) =
      decide (rest.take 2 = [quote, quote]) := by
  have pos := extent_length_pos quote rest
  obtain ⟨k, length⟩ : ∃ k, (extent quote rest).length = k + 1 := ⟨_, (Nat.sub_add_cancel pos).symm⟩
  have long (triple : rest.take 2 = [quote, quote]) : 2 ≤ k := by
    unfold extent at length closed
    rw [if_pos triple] at length closed
    dsimp only at length closed
    split at length
    · next n found =>
      have := lt_of_closeTripleAt found
      dsimp only at length
      omega
    · next none =>
      rw [none] at closed
      cases closed
  rw [length, List.take_succ_cons, opensTriple,
    List.dropWhile_append_of_pos (by simpa using plain),
    List.dropWhile_cons_of_neg (by simp [quoted])]
  dsimp only
  by_cases triple : rest.take 2 = [quote, quote]
  · rw [List.take_take, Nat.min_eq_left (long triple), triple]
    simp
  · rw [decide_eq_false triple, beq_eq_false_iff_ne]
    intro front
    have two := congrArg List.length front
    simp only [List.length_take, List.length_cons, List.length_nil] at two
    rw [List.take_take, Nat.min_eq_left (by omega)] at front
    exact triple front

end StringLiteral

/-! ## Lexemes -/

/-- What is read is a literal in one pair of quotes that goes on behind a line end. -/
def IsFolded (kind : TokenKind) (value : Text) : Prop :=
  kind = .string ∧ '\n' ∈ value ∧ StringLiteral.opensTriple value = false

instance (kind : TokenKind) (value : Text) : Decidable (IsFolded kind value) :=
  inferInstanceAs (Decidable (_ ∧ _ ∧ _))

namespace Scanner

/-- What the same lexeme is, with a carriage return before every line feed. -/
structure Matches (text : Text) (l l' : Lexeme) : Prop where
  kind : l'.kind = l.kind
  value : (withReturns text).take l'.length = withReturns (text.take l.length)
  rest : (withReturns text).drop l'.length = withReturns (text.drop l.length)

theorem matches_of_length {l l' : Lexeme} (kind : l'.kind = l.kind)
    (length : l'.length = (withReturns (text.take l.length)).length) : Matches text l l' :=
  ⟨kind, length ▸ take_withReturns text l.length, length ▸ drop_withReturns text l.length⟩

theorem matches_of_flat {l l' : Lexeme} (same : l' = l) (flat : '\n' ∉ text.take l.length) :
    Matches text l l' := by
  subst same
  exact ⟨rfl, by rw [take_flat flat, withReturns_flat flat], drop_flat flat⟩

/-- The lexeme `l` of a text, and `l'` of the text with carriage returns: they match unless `l` is
a literal in one pair of quotes over several lines, and then `l'` is of another type. -/
structure Follows (text : Text) (l l' : Lexeme) : Prop where
  apart : IsFolded l.kind (text.take l.length) → l'.kind ≠ l.kind
  alike : ¬ IsFolded l.kind (text.take l.length) → Matches text l l'

theorem follows_of_matches {l l' : Lexeme} (h : Matches text l l')
    (plain : ¬ IsFolded l.kind (text.take l.length)) : Follows text l l' :=
  ⟨fun folded => absurd folded plain, fun _ => h⟩

theorem follows_of_flat {l l' : Lexeme} (same : l' = l) (flat : '\n' ∉ text.take l.length) :
    Follows text l l' :=
  follows_of_matches (matches_of_flat same flat) fun folded => flat folded.2.1

theorem literal_withReturns {word : Text} (plain : ∀ c ∈ word, StringLiteral.isQuote c = false)
    (flat : '\n' ∉ word) (quoted : StringLiteral.isQuote quote = true) (free : '\r' ∉ rest) :
    Follows (word ++ quote :: rest) (literal word.length quote rest)
      (literal word.length quote (withReturns rest)) := by
  have value : (word ++ quote :: rest).take (literal word.length quote rest).length =
      word ++ (quote :: rest).take (StringLiteral.extent quote rest).length :=
    List.take_length_add_append ..
  by_cases triple : rest.take 2 = [quote, quote]
  · have same := StringLiteral.extent_triple quoted triple
    refine follows_of_matches (matches_of_length ?_ ?_) ?_
    · simp only [literal, same]
    · rw [value, withReturns_append, withReturns_flat flat, List.length_append]
      simp only [literal, same]
    · rintro ⟨string, -, single⟩
      have closed : (StringLiteral.extent quote rest).closed = true := by
        by_contra open_
        simp [literal, open_] at string
      rw [value, StringLiteral.opensTriple_literal plain quoted closed, decide_eq_true triple]
        at single
      cases single
  · have same := StringLiteral.extent_single quoted free triple
    by_cases line : '\n' ∈ (quote :: rest).take (StringLiteral.extent quote rest).length
    · rw [if_pos line] at same
      have closed := StringLiteral.closed_of_line quoted triple line
      have string : (literal word.length quote rest).kind = .string := by simp [literal, closed]
      refine ⟨fun _ => ?_, fun plain' => absurd ⟨string, ?_, ?_⟩ plain'⟩
      · rw [string]
        simp [literal, same]
      · rw [value]
        exact List.mem_append_right _ line
      · rw [value, StringLiteral.opensTriple_literal plain quoted closed, decide_eq_false triple]
    · rw [if_neg line] at same
      refine follows_of_flat (by simp only [literal, same]) ?_
      rw [value, List.mem_append]
      exact fun h => h.elim flat line

theorem wordLexeme_withReturns (free : '\r' ∉ text) :
    Follows text (wordLexeme text) (wordLexeme (withReturns text)) := by
  obtain ⟨same, flat⟩ :=
    count_withReturns (Numeral.stable_runLength isNameContinue) solid_word text
  have run := List.prefix_iff_eq_take.1 (List.takeWhile_prefix isNameContinue (l := text))
  have word : (withReturns text).takeWhile isNameContinue = text.takeWhile isNameContinue := by
    have run' := List.prefix_iff_eq_take.1
      (List.takeWhile_prefix isNameContinue (l := withReturns text))
    unfold Numeral.runLength at same flat
    rw [run', same, take_flat flat, ← run]
  have behind := drop_flat flat
  have whole := List.take_append_drop (text.takeWhile isNameContinue).length text
  rw [← run] at whole
  unfold Numeral.runLength at flat behind
  have name : Follows text ⟨.name, (text.takeWhile isNameContinue).length⟩
      ⟨.name, (text.takeWhile isNameContinue).length⟩ := follows_of_flat rfl flat
  unfold wordLexeme
  dsimp only
  rw [word, behind]
  cases tail : text.drop (text.takeWhile isNameContinue).length with
  | nil => exact name
  | cons quote rest =>
    rw [tail] at whole
    by_cases feed : quote = '\n'
    · subst feed
      rw [withReturns_feed]
      exact name
    · rw [withReturns_cons feed]
      dsimp only
      split
      · next marked =>
        rw [← run] at flat
        have plain : ∀ c ∈ text.takeWhile isNameContinue, StringLiteral.isQuote c = false := by
          intro c hc
          have goesOn := List.mem_takeWhile_imp hc
          rw [StringLiteral.isQuote, Bool.or_eq_false_iff, beq_eq_false_iff_ne,
            beq_eq_false_iff_ne]
          constructor <;> (rintro rfl; exact absurd goesOn (by decide +kernel))
        have literal := literal_withReturns plain flat marked.1 fun h =>
          free (whole ▸ List.mem_append_right _ (List.mem_cons_of_mem _ h))
        rwa [whole] at literal
      · exact name

theorem operatorLexeme_withReturns (line : c ≠ '\n') (rest : Text) :
    Follows (c :: rest) (operatorLexeme (c :: rest))
      (operatorLexeme (withReturns (c :: rest))) := by
  unfold operatorLexeme
  rw [Operator.atFront?_withReturns]
  refine follows_of_flat rfl ?_
  split
  · next o found =>
    have front := (Operator.atFront?_longest found).1
    dsimp only
    rw [← String.length_toList, ← List.prefix_iff_eq_take.1 front]
    exact fun line => Operator.solid_spelling o _ line (by decide)
  · simpa using Ne.symm line

theorem lexeme_withReturns (free : '\r' ∉ c :: rest) :
    ∃ c' rest', withReturns (c :: rest) = c' :: rest' ∧
      Follows (c :: rest) (lexeme c rest) (lexeme c' rest') := by
  by_cases feed : c = '\n'
  · subst feed
    refine ⟨_, _, withReturns_feed rest, follows_of_matches (matches_of_length rfl rfl) ?_⟩
    rintro ⟨kind, -⟩
    cases kind
  refine ⟨c, withReturns rest, withReturns_cons feed rest, ?_⟩
  have free' : '\r' ∉ rest := fun h => free (List.mem_cons_of_mem _ h)
  have noReturn : c ≠ '\r' := by
    rintro rfl
    exact free List.mem_cons_self
  have inside : ¬ (c = '\n' ∨ c = '\r') := not_or.2 ⟨feed, noReturn⟩
  unfold lexeme
  simp only [if_neg inside, ← withReturns_cons feed, Numeral.startsAt_withReturns]
  split
  · next quoted =>
    have bare : ∀ c ∈ ([] : Text), StringLiteral.isQuote c = false := by simp
    exact literal_withReturns bare List.not_mem_nil quoted free'
  · split
    · obtain ⟨same, flat⟩ :=
        count_withReturns Numeral.stable_length Numeral.solid_length (c :: rest)
      exact follows_of_flat (by rw [same]) flat
    · split
      · exact wordLexeme_withReturns free
      · exact operatorLexeme_withReturns feed rest

end Scanner

/-! ## Tokens -/

/-- The token of the text with a carriage return before every line feed. -/
def Token.withReturns (t : Token) : Token :=
  { t with value := Caret.withReturns t.value, trivia := Caret.withReturns t.trivia }

/-- The token is a literal in one pair of quotes that goes on behind a line end. -/
def Token.IsFolded (t : Token) : Prop := Caret.IsFolded t.kind t.value

instance (t : Token) : Decidable t.IsFolded :=
  inferInstanceAs (Decidable (Caret.IsFolded t.kind t.value))

theorem Token.IsLayout.withReturns {t : Token} (h : t.IsLayout) : t.withReturns = t := by
  rcases h with h | h <;> (rw [h]; rfl)

theorem Token.IsLayout.not_folded {t : Token} (h : t.IsLayout) : ¬ t.IsFolded := by
  rintro ⟨kind, -⟩
  rcases h with h | h <;> (rw [h] at kind; cases kind)

theorem Token.map_withReturns_layout {ts : List Token} (h : ∀ t ∈ ts, t.IsLayout) :
    ts.map Token.withReturns = ts :=
  (List.map_congr_left fun t ht => (h t ht).withReturns).trans (List.map_id ts)

namespace Scanner

variable {s : Scanner}

/-- The scanner before the same text with a carriage return before every line feed. -/
def withReturns (s : Scanner) : Scanner := { s with rest := Caret.withReturns s.rest }

/-- Up to the lexeme a round does the same. -/
theorem approach_withReturns (free : '\r' ∉ s.rest) :
    s.withReturns.approach = ⟨s.approach.blocks, s.approach.margins,
      Caret.withReturns s.approach.trivia, Caret.withReturns s.approach.rest,
      s.approach.start⟩ := by
  have line : (if s.atLineStart then margin false 0 (Caret.withReturns s.rest)
      else ⟨[], 0, Caret.withReturns s.rest⟩) =
      (if s.atLineStart then margin false 0 s.rest else ⟨[], 0, s.rest⟩).withReturns := by
    split
    · exact margin_withReturns false 0 free
    · rfl
  have free' : '\r' ∉ (if s.atLineStart then margin false 0 s.rest else ⟨[], 0, s.rest⟩).rest := by
    split
    · rw [← margin_append false 0 s.rest] at free
      exact fun h => free (List.mem_append_right _ h)
    · exact free
  unfold approach withReturns
  dsimp only
  rw [line]
  generalize (if s.atLineStart then margin false 0 s.rest else ⟨[], 0, s.rest⟩) = m at free'
  simp only [Margin.withReturns, gap_withReturns _ _ free', advancedBy_withReturns,
    isEmpty_withReturns, withReturns_append]

/-- The round gives the same tokens with carriage returns, and goes on from the same place. -/
structure Agrees (s : Scanner) : Prop where
  plain : ∀ t ∈ s.round.tokens, ¬ t.IsFolded
  tokens : s.withReturns.round.tokens = s.round.tokens.map Token.withReturns
  next : s.withReturns.round.next = s.round.next.withReturns
  ended : s.withReturns.round.ended = s.round.ended

/-- The round reads a literal in one pair of quotes over several lines, and with carriage returns
a token of another type. -/
def Differs (s : Scanner) : Prop :=
  ∃ blocks t t', s.round.tokens = blocks ++ [t] ∧ s.withReturns.round.tokens = blocks ++ [t'] ∧
    (∀ u ∈ blocks, u.IsLayout) ∧ t.IsFolded ∧ t'.kind ≠ t.kind

theorem round_withReturns (free : '\r' ∉ s.rest) : s.Agrees ∨ s.Differs := by
  have approach := approach_withReturns free
  obtain ⟨_, -, blocks⟩ := s.approach_isLayout
  have layout : ∀ t ∈ s.approach.blocks, t.IsLayout := fun t ht => (blocks t ht).1
  cases hrest : s.approach.rest with
  | nil =>
    left
    have round := round_last hrest
    have hrest' : s.withReturns.approach.rest = [] := by
      rw [approach, hrest]
      rfl
    have round' := round_last hrest'
    rw [approach] at round'
    refine ⟨?_, ?_, ?_, ?_⟩
    · rw [round]
      intro t ht
      rcases List.mem_append.1 ht with ht | ht
      · exact (approach_closing ht).1.not_folded
      · rw [List.mem_singleton.1 ht]
        rintro ⟨kind, -⟩
        cases kind
    · rw [round, round', List.map_append,
        Token.map_withReturns_layout fun t ht => (approach_closing ht).1]
      rfl
    · rw [round, round']
      rfl
    · rw [round, round']
  | cons c rest =>
    have round := round_lexeme hrest
    have free' : '\r' ∉ c :: rest := by
      rw [s.approach_text, hrest] at free
      exact fun h => free (List.mem_append_right _ h)
    obtain ⟨c', rest', split, follows⟩ := lexeme_withReturns free'
    have hrest' : s.withReturns.approach.rest = c' :: rest' := by
      rw [approach, hrest]
      exact split
    have round' := round_lexeme hrest'
    rw [approach] at round'
    by_cases folded : IsFolded (lexeme c rest).kind ((c :: rest).take (lexeme c rest).length)
    · right
      exact ⟨_, _, _, congrArg Round.tokens round, congrArg Round.tokens round', layout, folded,
        follows.apart folded⟩
    · left
      obtain ⟨kind, value, behind⟩ := follows.alike folded
      rw [split] at value behind
      refine ⟨?_, ?_, ?_, ?_⟩
      · rw [round]
        intro t ht
        rcases List.mem_append.1 ht with ht | ht
        · exact (layout t ht).not_folded
        · rw [List.mem_singleton.1 ht]
          exact folded
      · rw [round, round', List.map_append, Token.map_withReturns_layout layout, value, kind]
        rfl
      · rw [round, round', value, behind, kind]
        simp only [withReturns, advancedBy_withReturns]
      · rw [round, round']

/-- A round with another token makes other tokens of all rounds. -/
theorem Differs.tokens_ne {n m : Nat} (h : s.Differs) :
    s.withReturns.tokens (m + 1) ≠ (s.tokens (n + 1)).map Token.withReturns := by
  obtain ⟨blocks, t, t', round, round', layout, -, kind⟩ := h
  obtain ⟨more, whole⟩ := round_front s n
  obtain ⟨more', whole'⟩ := round_front s.withReturns m
  rw [← whole, ← whole', round, round', List.map_append, List.map_append,
    Token.map_withReturns_layout layout, List.append_assoc, List.append_assoc]
  intro same
  have first := congrArg Token.kind (List.cons.inj (List.append_cancel_left same)).1
  exact kind first

/-- With rounds enough for both, the tokens are the same unless one of them is a literal in one
pair of quotes over several lines. -/
theorem tokens_withReturns {n m : Nat} (free : '\r' ∉ s.rest) (room : s.rest.length < n)
    (room' : s.withReturns.rest.length < m) :
    s.withReturns.tokens m = (s.tokens n).map Token.withReturns ↔
      ∀ t ∈ s.tokens n, ¬ t.IsFolded := by
  -- round by round: both scanners go on from the same place until a round differs
  induction n generalizing s m with
  | zero => omega
  | succ n ih =>
    obtain ⟨m, rfl⟩ : ∃ k, m = k + 1 := ⟨m - 1, by omega⟩
    rcases round_withReturns free with ⟨plain, same, next, ended⟩ | differs
    · rw [tokens, tokens, same, ended, next]
      cases last : s.round.ended with
      | true => exact iff_of_true rfl plain
      | false =>
        have shorter := round_shortens last
        have shorter' := round_shortens (ended.trans last)
        rw [next] at shorter'
        have free' : '\r' ∉ s.round.next.rest := by
          rcases s.round_cases with ⟨_, _, _, ended, _⟩ | ⟨_, t, _, _, _, rest, _⟩
          · rw [last] at ended
            cases ended
          · exact fun h => free (rest ▸ List.mem_append_right _ h)
        rw [if_neg Bool.false_ne_true, if_neg Bool.false_ne_true, List.map_append,
          List.append_cancel_left_eq, ih free' (by omega) (by omega), List.forall_mem_append,
          and_iff_right plain]
    · refine iff_of_false differs.tokens_ne fun plain => ?_
      obtain ⟨blocks, t, t', round, -, -, folded, -⟩ := differs
      have here : t ∈ s.round.tokens := round ▸ List.mem_append_right _ List.mem_cons_self
      exact plain t ((round_front s n).subset here) folded

end Scanner

/-- Line ends may be written as line feeds, or as line feeds each behind a carriage return: the
tokens are as many, of the same types and at the same places, and have the same text but for the
carriage returns, if and only if no literal in one pair of quotes goes on behind a line end. -/
theorem tokenize_withReturns {s : Text} (free : '\r' ∉ s) :
    tokenize (withReturns s) = (tokenize s).map Token.withReturns ↔
      ∀ t ∈ tokenize s, ¬ t.IsFolded :=
  Scanner.tokens_withReturns (s := .ofText s) free (Nat.lt_succ_self _) (Nat.lt_succ_self _)

/-- A block, brackets over two lines, an escaped line end and a literal in three quotes do not
matter. -/
theorem tokenize_withReturns_block :
    let source := "if (a,\n  b): # c\n\n  x = \\\n '''d\\\ne'''\ny\n".toList
    '\r' ∉ source ∧ (∀ t ∈ tokenize source, ¬ t.IsFolded) ∧
      tokenize (withReturns source) = (tokenize source).map Token.withReturns := by
  intro source
  have free : '\r' ∉ source := by decide +kernel
  have plain : ∀ t ∈ tokenize source, ¬ t.IsFolded := by decide +kernel
  exact ⟨free, plain, (tokenize_withReturns free).2 plain⟩

/-- Of an escaped line end of two characters in a literal the backslash takes the first only, so
that the second breaks the line that the literal is on. -/
theorem tokenize_escaped_return :
    let source := "'a\\\nb'\n".toList
    '\r' ∉ source ∧ (tokenize source).map (·.kind) = [.string, .newline, .endMarker] ∧
      (tokenize (withReturns source)).head?.map (·.kind) = some .error ∧
      tokenize (withReturns source) ≠ (tokenize source).map Token.withReturns := by
  decide +kernel

end Caret

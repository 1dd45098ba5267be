import Caret.Completion
import Caret.Proofs.Expectation
import Caret.Proofs.Lossless
/-!
# Completion always has an answer

A truncated text is tokens and the end marker, and the end marker is not fed. Any other token leaves
the frame of the source open, whatever recovery does, so the tokens run out with open frames of
rules of the grammar, and what may come next can be told of those. What is left to fail is finding
the place of the cursor, and that is no fault.

Results:
* `drive_ok`: what is fed of a truncated text, and that the parser is ready for more afterwards.
* `partialParse_ok`: a truncated text leaves frames open, that of the source the outermost.
* `stackAt_cases`: why there are no open frames at a position.
* `answers`: with the Python grammar no text, source or position makes completion fail.
-/
namespace Caret

namespace Parser

variable {g : Grammar} {p : Parser}

theorem feedFrom_cons (t : Token) (tokens : List Token) :
    feedFrom g p (t :: tokens) = feedFrom g (feed g t p).2 tokens := rfl

theorem feedFrom_append (tokens more : List Token) :
    feedFrom g p (tokens ++ more) = feedFrom g (feedFrom g p tokens) more :=
  List.foldl_append ..

/-- All tokens but the end marker leave the parser ready for more. -/
theorem Ready.feedFrom (ok : g.Consistent) (lay : g.Layered) {tokens : List Token}
    (before : ∀ t ∈ tokens, t.kind ≠ .endMarker) (h : Ready g p) :
    Ready g (feedFrom g p tokens) := by
  induction tokens generalizing p with
  | nil => exact h
  | cons t tokens ih =>
    obtain ⟨-, goesOn, -⟩ := feed_lossless (t := t) ok lay h
    have next := (goesOn (before t List.mem_cons_self)).2
    exact ih (fun u hu => before u (List.mem_cons_of_mem _ hu)) next

/-- The outermost frame is that of the start rule in its first state. -/
theorem Orderly.outermost {stack : List Frame} (h : Orderly g stack) :
    ∃ f, stack.getLast? = some f ∧ g.start? = some f.rule ∧ f.state = 0 := by
  induction h with
  | source start first => exact ⟨_, rfl, start, first⟩
  | inside _ _ _ _ ih =>
    obtain ⟨f, last, start, first⟩ := ih
    exact ⟨f, by rw [List.getLast?_cons_cons]; exact last, start, first⟩

end Parser

namespace Completion

variable {g : Grammar} {p : Parser}

/-! ## Truncated texts -/

/-- The tokens of a truncated text that are fed: all but those that close blocks. -/
def fedTokens (tokens : List Token) : List Token := tokens.filter (·.kind != .dedent)

/-- Driving the parser over tokens and the end marker feeds them all but those that close blocks. -/
theorem drive_ok (ok : g.Consistent) (lay : g.Layered) {body : List Token} {last : Token}
    (inner : ∀ t ∈ body, t.kind ≠ .endMarker) (marker : last.kind = .endMarker)
    (ready : Parser.Ready g p) :
    drive g (body ++ [last]) p = .ok (Parser.feedFrom g p (fedTokens body)).stack := by
  induction body generalizing p with
  | nil => simp [drive, marker, fedTokens, Parser.feedFrom]
  | cons t body ih =>
    have kind := inner t List.mem_cons_self
    have rest : ∀ u ∈ body, u.kind ≠ .endMarker :=
      fun u hu => inner u (List.mem_cons_of_mem _ hu)
    by_cases closes : t.kind = .dedent
    · have skipped : fedTokens (t :: body) = fedTokens body := by simp [fedTokens, closes]
      rw [skipped, ← ih rest ready, List.cons_append, drive]
      simp only [closes]
    · have kept : fedTokens (t :: body) = t :: fedTokens body := by simp [fedTokens, closes]
      obtain ⟨-, goesOn, -⟩ := Parser.feed_lossless (t := t) ok lay ready
      obtain ⟨unfinished, ready'⟩ := goesOn kind
      have answer : Parser.feed g t p = (.ok false, (Parser.feed g t p).2) :=
        Prod.ext unfinished rfl
      rw [kept, Parser.feedFrom_cons, ← ih rest ready', List.cons_append, drive]
      split
      · next h => exact absurd h kind
      · next h => exact absurd h closes
      · rw [answer]

/-- A truncated text leaves frames of rules of the grammar open, the outermost of them that of the
start rule. -/
theorem partialParse_ok (ok : g.Consistent) (lay : g.Layered) (text : Text) :
    ∃ q, partialParse g text = .ok q.stack ∧ Parser.Ready g q := by
  obtain ⟨body, last, tokens, marker, inner⟩ := tokenize_eq text
  obtain ⟨ready, -⟩ := Parser.ready_new ok
  have fed : ∀ t ∈ fedTokens body, t.kind ≠ .endMarker :=
    fun t ht => inner t (List.mem_of_mem_filter ht)
  refine ⟨Parser.feedFrom g (.new g) (fedTokens body), ?_, ready.feedFrom ok lay fed⟩
  rw [partialParse, tokens, drive_ok ok lay inner marker ready]

/-- What may come next can be told of open frames of rules of the grammar. -/
theorem expected_ok (ok : g.Consistent) (known : Parser.Known g p) :
    ∃ e, expected g p.stack = .ok e := by
  have nothing : Expected.nothing.Closed g := fun hi => absurd hi List.not_mem_nil
  obtain ⟨e, scanned, -⟩ := Expected.scan_gathers ok known .nothing nothing
  exact ⟨e.sorted, by rw [expected, scanned]; rfl⟩

/-! ## Positions -/

/-- A position has a place, or it is in a string or in a token without a place, or outside the
source. -/
theorem locate_error {m : Module} {pos : Position} {e : CompletionError}
    (h : locate m pos = .error e) :
    e = .outOfBounds pos ∨ ∃ kind, e = .unparsableContext kind pos := by
  rcases locate_cases m pos with h' | ⟨-, h'⟩ | ⟨found, -, h' | h'⟩ <;> rw [h'] at h <;> cases h
  · exact .inl rfl
  · exact .inr ⟨_, rfl⟩

/-- At a position there are open frames, or the position has no place. -/
theorem stackAt_cases (ok : g.Consistent) (lay : g.Layered) (source : Text) (m : Module)
    (pos : Position) :
    (∃ q, stackAt g source m pos = .ok q.stack ∧ Parser.Ready g q) ∨
      ∃ e, stackAt g source m pos = .error e ∧
        (e = .outOfBounds pos ∨ ∃ kind, e = .unparsableContext kind pos) := by
  unfold stackAt snippetAt
  cases located : locate m pos with
  | error e => exact .inr ⟨e, rfl, locate_error located⟩
  | ok place =>
    left
    cases place with
    | whitespace => exact partialParse_ok ok lay []
    | node place => exact partialParse_ok ok lay (trimSnippet (source.between place.tree.start pos))

/-- Where nothing can be typed there is nothing to expect, and nothing is wrong. -/
theorem expectedAt_ok (ok : g.Consistent) (lay : g.Layered) (source : Text) (m : Module)
    (pos : Position) : ∃ found, expectedAt g source m pos = .ok found := by
  unfold expectedAt
  rcases stackAt_cases ok lay source m pos with ⟨q, stack, ready⟩ | ⟨e, failed, why⟩
  · obtain ⟨e, expects⟩ := expected_ok ok ready.known
    exact ⟨some e, by rw [stack]; dsimp only; rw [expects]; rfl⟩
  · have recoverable : e.isRecoverable = true := by
      rcases why with rfl | ⟨kind, rfl⟩ <;> rfl
    exact ⟨none, by rw [failed]; dsimp only; rw [if_pos recoverable]⟩

/-- With the Python grammar every text can be parsed up to its end, the frame of the source stays
open, and what may come next can be told. Every source is parsed, and at every position of it, or
outside of it, completion gives a report; there are no open frames only where the position is in a
string or a token without a place, or outside the source. -/
theorem answers :
    ∃ g, Grammar.python = .ok g ∧
      (∀ text, ∃ stack outermost e, partialParse g text = .ok stack ∧
        stack.getLast? = some outermost ∧ outermost.rule.name = "file_input" ∧
        expected g stack = .ok e) ∧
      ∀ source, ∃ m, Module.parse g source = .ok m ∧ ∀ pos,
        (∀ e, stackAt g source m pos = .error e →
          e = .outOfBounds pos ∨ ∃ kind, e = .unparsableContext kind pos) ∧
        ∀ {δ : Type} (evaluator : Evaluator δ) (c : Config),
          ∃ report, complete g m source pos evaluator c = .ok report := by
  have ok := Grammar.python_consistent
  have lay := Grammar.python_layered
  refine ⟨Grammar.pythonTables, Grammar.python_eq, fun text => ?_, fun source => ?_⟩
  · obtain ⟨q, parsed, ready⟩ := partialParse_ok ok lay text
    obtain ⟨outermost, last, start, -⟩ := ready.orderly.outermost
    obtain ⟨e, expects⟩ := expected_ok ok ready.known
    exact ⟨q.stack, outermost, e, parsed, last, lay.name start, expects⟩
  · obtain ⟨m, parsed, -⟩ := Module.parse_of_layered ok lay source
    refine ⟨m, parsed, fun pos => ⟨fun e failed => ?_, fun evaluator c => ?_⟩⟩
    · rcases stackAt_cases ok lay source m pos with ⟨q, stack, -⟩ | ⟨e', failed', why⟩
      · rw [failed] at stack
        cases stack
      · rw [failed] at failed'
        cases failed'
        exact why
    · obtain ⟨found, expects⟩ := expectedAt_ok ok lay source m
        ⟨pos.line, pos.column - (Parts.ofPath (pathUntil source pos)).name.length⟩
      exact ⟨_, by unfold complete; dsimp only; rw [expects]; rfl⟩

end Completion

end Caret

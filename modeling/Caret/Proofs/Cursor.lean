import Caret.Completion
import Caret.Proofs.PythonTables
/-!
# What text behind the cursor can change

What may be typed is found by parsing the text from the start of a statement up to the cursor. The
text behind the cursor is not parsed there, but it decides, with the rest of the source, where the
statement starts. So it matters by that start, and by nothing else. It does matter: behind `if x`
the cursor is in no statement as long as nothing follows, and in the condition once there is a
block.

Results:
* `Text.between_append`: the text up to the end of a source, cut from the source or from a longer
  one.
* `typesAt_eq`: the answer is that for the text from the start of the snippet to the cursor.
* `typesAt_congr`: text behind the cursor that leaves the start where it is leaves the answer.
* `typesAt_changed`: another start, and another answer.
-/
namespace Caret

namespace Text

variable {s t : Text} {c : Char}

/-- The lines of a text put behind another: the last line of the one and the first of the other
become one line. -/
theorem exists_lines_append (t s : Text) : ∃ before last first after,
    lines t = before ++ [last] ∧ lines s = first :: after ∧
      lines (t ++ s) = before ++ (last ++ first) :: after := by
  induction t with
  | nil =>
    obtain ⟨first, after, hs⟩ := List.exists_cons_of_ne_nil (lines_ne_nil s)
    exact ⟨[], [], first, after, rfl, hs, hs⟩
  | cons c t ih =>
    obtain ⟨before, last, first, after, ht, hs, hts⟩ := ih
    rw [List.cons_append, lines_cons, lines_cons, ht, hts]
    split
    · exact ⟨[] :: before, last, first, after, rfl, hs, rfl⟩
    · cases before with
      | nil => exact ⟨[], c :: last, first, after, rfl, hs, rfl⟩
      | cons line before => exact ⟨(c :: line) :: before, last, first, after, rfl, hs, rfl⟩

/-- Writing a text ends in its last line, behind what was in that line. -/
theorem advancedBy_lines (before : List Text) {last : Text} (h : lines t = before ++ [last])
    (p : Position) : p.advancedBy t =
      ⟨p.line + before.length, if before = [] then p.column + last.length else last.length⟩ := by
  induction t generalizing p before last with
  | nil =>
    obtain ⟨rfl, rfl⟩ : before = [] ∧ last = [] := by
      cases before with
      | nil => exact ⟨rfl, by simpa [lines_nil] using h.symm⟩
      | cons => simp [lines_nil] at h
    rfl
  | cons c t ih =>
    rw [lines_cons] at h
    show (p.advance c).advancedBy t = _
    split at h
    · next hc =>
      -- the first line is over
      cases before with
      | nil => exact absurd (List.cons.inj h).2 (lines_ne_nil t)
      | cons line before =>
        rw [ih before (List.cons.inj h).2]
        simp [Position.advance, hc]
        omega
    · next hc =>
      obtain ⟨first, after, ht⟩ := List.exists_cons_of_ne_nil (lines_ne_nil t)
      rw [ht, consFirst] at h
      cases before with
      | nil =>
        obtain ⟨rfl, rfl⟩ := List.cons.inj h
        rw [ih [] ht]
        simp [Position.advance, hc]
        omega
      | cons line before =>
        obtain ⟨rfl, rfl⟩ := List.cons.inj h
        rw [ih (first :: before) ht]
        simp [Position.advance, hc]

theorem unlines_cons (line : Text) {rest : List Text} (h : rest ≠ []) :
    unlines (line :: rest) = line ++ '\n' :: unlines rest := by
  obtain ⟨next, rest, rfl⟩ := List.exists_cons_of_ne_nil h
  simp [unlines, List.intercalate]

/-- The last line is the end of the text. -/
theorem last_suffix {before : List Text} {last : Text} (h : lines t = before ++ [last]) :
    last <:+ t := by
  have suffix (before : List Text) : last <:+ unlines (before ++ [last]) := by
    induction before with
    | nil => simp [unlines, List.intercalate]
    | cons line before ih =>
      rw [List.cons_append, unlines_cons line (by simp)]
      exact (ih.trans (List.suffix_cons _ _)).trans (List.suffix_append _ _)
  have := suffix before
  rwa [← h, unlines_lines] at this

theorem onLast_concat (f : Text → Text) (before : List Text) (line : Text) :
    onLast f (before ++ [line]) = before ++ [f line] := by
  induction before with
  | nil => rfl
  | cons first before ih =>
    cases before with
    | nil => rfl
    | cons second before => exact congrArg (first :: ·) ih

/-- Of the lines up to some line, `f` changes that line only, whatever comes behind it. -/
theorem onLast_upTo (f : Text → Text) (before : List Text) (line : Text) (after : List Text)
    (k : Nat) : onLast f (((before ++ line :: after).take
        (min (1 + before.length) (before ++ line :: after).length)).drop k) =
      if k ≤ before.length then before.drop k ++ [f line] else [] := by
  have upTo : (before ++ line :: after).take
      (min (1 + before.length) (before ++ line :: after).length) = before ++ [line] := by
    have : min (1 + before.length) (before ++ line :: after).length =
        (before ++ [line]).length := by
      simp only [List.length_append, List.length_cons, List.length_nil]; omega
    rw [this, List.append_cons before line after, List.take_left]
  rw [upTo]
  split
  · next hk => rw [List.drop_append_of_le_length hk, onLast_concat]
  · next hk => rw [List.drop_eq_nil_of_le (by simp; omega)]; rfl

/-- Cut off behind what it began with, a longer line is that again. -/
theorem take_dropReturn {last : Text} (hr : last.getLast? ≠ some '\r') (first : Text) :
    (dropReturn (last ++ first)).take last.length = last := by
  unfold dropReturn
  split
  · next h =>
    cases first with
    | nil => rw [List.append_nil] at h; exact absurd h hr
    | cons c first =>
      rw [List.dropLast_append_of_ne_nil (List.cons_ne_nil c first), List.take_left]
  · exact List.take_left

/-- The text up to the end of a source is the same in a longer source. A carriage return at the end
of a line is no part of it, so the source must not end with one. -/
theorem between_append (hr : t.getLast? ≠ some '\r') (s : Text) (start : Position) :
    between (t ++ s) start (Position.start.advancedBy t) =
      between t start (Position.start.advancedBy t) := by
  obtain ⟨before, last, first, after, ht, -, hts⟩ := exists_lines_append t s
  have hlast : last.getLast? ≠ some '\r' := by
    obtain ⟨front, rfl⟩ := last_suffix ht
    intro h
    exact hr (by rw [List.getLast?_append, h]; rfl)
  have stop : Position.start.advancedBy t = ⟨1 + before.length, last.length⟩ := by
    rw [advancedBy_lines before ht]
    simp [Position.start]
  have self : (dropReturn last).take last.length = last := by
    have := take_dropReturn hlast []
    rwa [List.append_nil] at this
  unfold between sourceLines
  rw [ht, hts, stop]
  simp only [List.map_append, List.map_cons, List.map_nil]
  have same : before.length = (before.map dropReturn).length := (List.length_map _).symm
  rw [same, onLast_upTo, onLast_upTo, take_dropReturn hlast, self]

end Text

namespace Completion

variable {g : Grammar} {t : Text}

/-- What may come next at a position of a source, as far as anything can be typed there. -/
def typesAt (g : Grammar) (source : Text) (pos : Position) : Option Expected := do
  let m ← (Module.parse g source).toOption
  let stack ← (stackAt g source m pos).toOption
  (expected g stack).toOption

/-- Where the snippet before a position of a source starts: in no place that can be completed, in
white space, or at a position. -/
inductive Start
  | nowhere
  | whitespace
  | position (pos : Position)
  deriving DecidableEq, Repr

def Start.ofLocated : Except CompletionError Located → Start
  | .error _ => .nowhere
  | .ok .whitespace => .whitespace
  | .ok (.node place) => .position place.tree.start

/-- Where the snippet before a position of a source starts. -/
def startAt (g : Grammar) (source : Text) (pos : Position) : Start :=
  match Module.parse g source with
  | .error _ => .nowhere
  | .ok m => .ofLocated (locate m pos)

/-- The text of a snippet, given its start. -/
def snippetFrom (source : Text) (pos : Position) : Start → Option Text
  | .nowhere => none
  | .whitespace => some []
  | .position start => some (trimSnippet (source.between start pos))

theorem snippetAt_toOption (source : Text) (m : Module) (pos : Position) :
    (snippetAt source m pos).toOption = snippetFrom source pos (.ofLocated (locate m pos)) := by
  unfold snippetAt
  cases locate m pos with
  | error e => rfl
  | ok place => cases place <;> rfl

/-- The rest of the source matters by the start of the snippet only. -/
theorem typesAt_eq (g : Grammar) (source : Text) (pos : Position) :
    typesAt g source pos = (snippetFrom source pos (startAt g source pos)).bind fun code =>
      (partialParse g code).toOption.bind fun stack => (expected g stack).toOption := by
  unfold typesAt startAt
  cases Module.parse g source with
  | error e => rfl
  | ok m =>
    dsimp only
    rw [← snippetAt_toOption]
    show (stackAt g source m pos).toOption.bind (fun stack => (expected g stack).toOption) = _
    unfold stackAt
    cases snippetAt source m pos <;> rfl

/-- Text behind the cursor matters by the start of the snippet only, unless it makes a carriage
return before the cursor a part of a line end. -/
theorem typesAt_congr (hr : t.getLast? ≠ some '\r') (s : Text)
    (same : startAt g (t ++ s) (Position.start.advancedBy t) =
      startAt g t (Position.start.advancedBy t)) :
    typesAt g (t ++ s) (Position.start.advancedBy t) =
      typesAt g t (Position.start.advancedBy t) := by
  rw [typesAt_eq, typesAt_eq, same]
  have snippet (start : Start) : snippetFrom (t ++ s) (Position.start.advancedBy t) start =
      snippetFrom t (Position.start.advancedBy t) start := by
    cases start with
    | position start => exact congrArg (some ∘ trimSnippet) (Text.between_append hr s start)
    | _ => rfl
  rw [snippet]

/-- Behind `if x` a block puts the start of the snippet into the condition, and other tokens may
come next. -/
theorem typesAt_changed : ∃ g, Grammar.python = .ok g ∧
    typesAt g ("if x".toList ++ ":\n    pass\n".toList) (Position.start.advancedBy "if x".toList) ≠
      typesAt g "if x".toList (Position.start.advancedBy "if x".toList) :=
  ⟨Grammar.pythonTables, Grammar.python_eq, by decide +kernel⟩

end Completion

end Caret

import Caret.Proofs.Cursor
import Caret.Proofs.Ordering
/-!
# Slices between positions

A position is reached by writing the text before it, and a slice undoes that: between the positions
before and behind a part of a source it cuts out that part. Slices drop the carriage return at the
end of a line, so no line may end in one.

The positions of a tree are those of the completed source, which may have one more line feed than
the source. They can be used with the source as far as they are in it.

Results:
* `PlainEnds`: no line of a text ends in a carriage return.
* `Text.between_advancedBy`: the slice between two positions that writing a text leads through.
* `tokenize_stands`: every token stands in the source, block tokens too.
* `Module.leaf_slice`: the slice from the start to the end of a leaf is its value.
* `Module.slices_exact`: both, for every text and for every source of the Python grammar.
-/
namespace Caret

namespace Text

variable {u v w t : Text}

/-- No line of the text ends in a carriage return. -/
def PlainEnds (t : Text) : Prop := ∀ line ∈ lines t, line.getLast? ≠ some '\r'

instance (t : Text) : Decidable (PlainEnds t) :=
  inferInstanceAs (Decidable (∀ line ∈ lines t, _))

theorem PlainEnds.sourceLines_eq (plain : PlainEnds t) : sourceLines t = lines t := by
  rw [sourceLines]
  refine (List.map_congr_left fun line hl => ?_).trans (List.map_id _)
  rw [dropReturn, if_neg (plain line hl), id]

theorem mem_of_mem_lines {t line : Text} {c : Char} (h : line ∈ lines t) (hc : c ∈ line) :
    c ∈ t := by
  induction t generalizing line with
  | nil =>
    rw [lines_nil, List.mem_singleton] at h
    rw [h] at hc
    cases hc
  | cons d t ih =>
    rw [lines_cons] at h
    split at h
    · rcases List.mem_cons.1 h with rfl | h
      · cases hc
      · exact List.mem_cons_of_mem _ (ih h hc)
    · obtain ⟨first, after, ht⟩ := List.exists_cons_of_ne_nil (lines_ne_nil t)
      rw [ht, consFirst] at h
      rcases List.mem_cons.1 h with rfl | h
      · rcases List.mem_cons.1 hc with rfl | hc
        · exact List.mem_cons_self
        · exact List.mem_cons_of_mem _ (ih (ht ▸ List.mem_cons_self) hc)
      · exact List.mem_cons_of_mem _ (ih (ht ▸ List.mem_cons_of_mem _ h) hc)

theorem PlainEnds.of_free (free : '\r' ∉ t) : PlainEnds t :=
  fun _ hl last => free (mem_of_mem_lines hl (List.mem_of_getLast? last))

/-- Where writing `u` leads and where writing `v` behind it leads are the ends of `v`, whatever
follows. -/
theorem between_advancedBy (plain : PlainEnds (u ++ v ++ w)) :
    between (u ++ v ++ w) (Position.start.advancedBy u) (Position.start.advancedBy (u ++ v)) =
      v := by
  obtain ⟨before, last, first, after, hu, hv, huv⟩ := exists_lines_append u v
  obtain ⟨upTo, final, rest, behind, huv', -, whole⟩ := exists_lines_append (u ++ v) w
  -- the lines that `v` takes part in, the last of them up to its end
  obtain ⟨inner, rfl, split⟩ : ∃ inner, upTo = before ++ inner ∧
      inner ++ [final] = (last ++ first) :: after := by
    rw [huv', ← List.dropLast_append_getLast (List.cons_ne_nil (last ++ first) after),
      ← List.append_assoc] at huv
    obtain ⟨rfl, final_eq⟩ := List.append_inj' huv rfl
    refine ⟨_, rfl, ?_⟩
    rw [final_eq, List.dropLast_append_getLast]
  have start : Position.start.advancedBy u = ⟨1 + before.length, last.length⟩ := by
    rw [advancedBy_lines before hu]
    simp [Position.start]
  have stop : Position.start.advancedBy (u ++ v) =
      ⟨1 + (before ++ inner).length, final.length⟩ := by
    rw [advancedBy_lines (before ++ inner) huv']
    simp [Position.start]
  unfold between
  rw [plain.sourceLines_eq, whole, start, stop]
  dsimp only
  rw [onLast_upTo, Nat.add_sub_cancel_left, if_pos (by simp), List.drop_left, List.take_left,
    split, onFirst, List.drop_left, ← hv, unlines_lines]

end Text

/-! ## Leaves -/

variable {ts : List Token} {ls : List Leaf} {l : Leaf} {t : Token} {source u v : Text}

/-- A leaf has the value and the place of a token. -/
theorem Spells.token (h : Spells ts ls) (hl : l ∈ ls) :
    ∃ t ∈ ts, l.value = t.value ∧ l.start = t.start := by
  induction h with
  | nil => cases hl
  | keep value _ start _ ih =>
    rcases List.mem_cons.1 hl with rfl | hl
    · exact ⟨_, List.mem_cons_self, value, start⟩
    · obtain ⟨t, ht, same⟩ := ih hl
      exact ⟨t, List.mem_cons_of_mem _ ht, same⟩
  | drop _ _ _ _ ih =>
    obtain ⟨t, ht, same⟩ := ih hl
    exact ⟨t, List.mem_cons_of_mem _ ht, same⟩

/-- The token stands somewhere in this text, which starts at this position. -/
def Token.StandsIn (pos : Position) (text : Text) (t : Token) : Prop :=
  ∃ u v, text = u ++ t.value ++ v ∧ t.start = pos.advancedBy u

namespace Scanner

variable {s : Scanner} {n : Nat}

/-- The tokens of a round stand in what is left to read, and the scanner moves on in it. -/
theorem round_stands (s : Scanner) : (∀ t ∈ s.round.tokens, t.StandsIn s.position s.rest) ∧
    (s.round.ended = false → ∃ read, s.rest = read ++ s.round.next.rest ∧
      s.round.next.position = s.position.advancedBy read) := by
  have text := s.approach_text
  have blocks : ∀ t ∈ s.approach.blocks, t.StandsIn s.position s.rest := by
    obtain ⟨skipped, ⟨more, trivia⟩, layout⟩ := s.approach_isLayout
    intro t ht
    obtain ⟨block, start⟩ := layout t ht
    refine ⟨skipped, more ++ s.approach.rest, ?_, start⟩
    rw [text, ← trivia, block.value]
    simp
  cases hrest : s.approach.rest with
  | nil =>
    rw [hrest, List.append_nil] at text
    have last (t : Token) (value : t.value = []) (start : t.start = s.approach.start) :
        t.StandsIn s.position s.rest :=
      ⟨s.approach.trivia, [], by simp [value, text], start.trans s.approach_start⟩
    rw [round_last hrest]
    refine ⟨fun t ht => ?_, by simp⟩
    simp only [List.mem_append, List.mem_singleton] at ht
    rcases ht with (ht | ht) | rfl
    · exact blocks t ht
    · rw [List.eq_of_mem_replicate ht]
      exact last _ rfl rfl
    · exact last _ rfl rfl
  | cons c rest =>
    have read : s.rest = s.approach.trivia ++ (c :: rest).take (lexeme c rest).length ++
        (c :: rest).drop (lexeme c rest).length := by
      rw [List.append_assoc, List.take_append_drop, text, hrest]
    rw [round_lexeme hrest]
    refine ⟨fun t ht => ?_, fun _ => ⟨_, read, ?_⟩⟩
    · rcases List.mem_append.1 ht with ht | ht
      · exact blocks t ht
      · rw [List.mem_singleton.1 ht]
        exact ⟨_, _, read, s.approach_start⟩
    · rw [Position.advancedBy_append, s.approach_start]

theorem tokens_stand (ht : t ∈ s.tokens n) : t.StandsIn s.position s.rest := by
  induction n generalizing s with
  | zero => cases ht
  | succ n ih =>
    obtain ⟨here, goesOn⟩ := s.round_stands
    rw [tokens] at ht
    split at ht
    · exact here t ht
    · next more =>
      rcases List.mem_append.1 ht with ht | ht
      · exact here t ht
      · obtain ⟨read, text, next⟩ := goesOn (by simpa using more)
        obtain ⟨u, v, rest, start⟩ := ih ht
        refine ⟨read ++ u, v, ?_, ?_⟩
        · rw [text, rest]
          simp only [List.append_assoc]
        · rw [start, next, Position.advancedBy_append]

end Scanner

/-- Every token of a source stands in it, block tokens too. -/
theorem tokenize_stands (ht : t ∈ tokenize source) : t.StandsIn .start source :=
  Scanner.tokens_stand ht

theorem Module.prefix_completed (source : Text) : source <+: completed source := by
  unfold completed
  split
  · exact List.prefix_refl _
  · exact List.prefix_append _ _

/-- A beginning of a completed source that ends no later than the source is one of the source. -/
theorem Module.prefix_of_completed (front : u <+: completed source)
    (within : Position.start.advancedBy u ≤ Position.start.advancedBy source) : u <+: source :=
  Position.prefix_of_le front (prefix_completed source) within

namespace Module

variable {g : Grammar} {m : Module}

/-- In a source without a carriage return at the end of a line, the slice from the start to the end
of a leaf is the leaf's value, as far as the leaf is in the source. -/
theorem leaf_slice (plain : Text.PlainEnds source)
    (spells : Spells (tokenize (completed source)) m.root.leaves) (hl : l ∈ m.root.leaves)
    (within : l.stop ≤ Position.start.advancedBy source) :
    source.between l.start l.stop = l.value := by
  obtain ⟨t, ht, value, start⟩ := spells.token hl
  obtain ⟨u, v, split, at_⟩ := tokenize_stands ht
  have stop : l.stop = Position.start.advancedBy (u ++ l.value) := by
    rw [Leaf.stop, start, at_, Position.advancedBy_append]
  rw [← value] at split
  rw [stop] at within
  obtain ⟨w, rfl⟩ := prefix_of_completed ⟨v, split.symm⟩ within
  rw [start, at_, stop, Text.between_advancedBy plain]

/-- Slicing inverts positions. The slice between where writing `u` leads and where writing `u` and
`v` leads is `v`. Therefore the slice from the start to the end of a leaf that lies within its
source is the leaf's value. -/
theorem slices_exact :
    (∀ u v w : Text, Text.PlainEnds (u ++ v ++ w) →
      Text.between (u ++ v ++ w) (Position.start.advancedBy u)
        (Position.start.advancedBy (u ++ v)) = v) ∧
    ∃ g, Grammar.python = .ok g ∧ ∀ source, Text.PlainEnds source →
      ∃ m, parse g source = .ok m ∧ ∀ l ∈ m.root.leaves,
        l.stop ≤ Position.start.advancedBy source → source.between l.start l.stop = l.value := by
  refine ⟨fun u v w plain => Text.between_advancedBy plain, _, Grammar.python_eq,
    fun source plain => ?_⟩
  obtain ⟨m, parsed, spells, -⟩ :=
    parse_of_layered Grammar.python_consistent Grammar.python_layered source
  exact ⟨m, parsed, fun l hl within => leaf_slice plain spells hl within⟩

/-- A literal over two lines, with a carriage return inside of one, in a source without a line feed
at its end. -/
theorem slices_exact_literal :
    Text.PlainEnds "é = '''\rb\n'''".toList ∧
    Text.between "é = '''\rb\n'''".toList (Position.start.advancedBy "é = ".toList)
      (Position.start.advancedBy "é = '''\rb\n'''".toList) = "'''\rb\n'''".toList ∧
    ∃ g m, Grammar.python = .ok g ∧ parse g "é = '''\rb\n'''".toList = .ok m ∧
      ∃ l ∈ m.root.leaves, l.kind = .string ∧
        l.stop ≤ Position.start.advancedBy "é = '''\rb\n'''".toList ∧
        Text.between "é = '''\rb\n'''".toList l.start l.stop = l.value := by
  obtain ⟨cuts, g, python, slices⟩ := slices_exact
  have plain : Text.PlainEnds "é = '''\rb\n'''".toList := by decide
  obtain ⟨m, parsed, exact_⟩ := slices _ plain
  obtain rfl := Grammar.python_tables python
  have computed : (parse Grammar.pythonTables "é = '''\rb\n'''".toList).toOption.any
      (fun m => m.root.leaves.any fun l => l.kind == .string &&
        l.stop ≤ Position.start.advancedBy "é = '''\rb\n'''".toList) = true := by
    decide +kernel
  rw [parsed] at computed
  obtain ⟨l, hl, found⟩ := List.any_eq_true.1 computed
  obtain ⟨string, within⟩ := Bool.and_eq_true_iff.1 found
  refine ⟨plain, cuts "é = ".toList "'''\rb\n'''".toList [] plain, _, m, python, parsed, l, hl,
    eq_of_beq string, of_decide_eq_true within, exact_ l hl (of_decide_eq_true within)⟩

end Module

end Caret

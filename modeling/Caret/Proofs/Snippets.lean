import Caret.Proofs.Answers
import Caret.Proofs.Cursor
import Caret.Proofs.Truncation
/-!
# Snippets of a logical line

A snippet starts with a token and ends behind one or in the gap before one. In a source without
carriage returns it is the text between, and the spaces and tabs at its end are part of that gap. So
its tokens are those of the source there, and they are what the parser is fed.

Results:
* `Completion.lexed_first`, `Completion.lexed_last`: tokens neither start nor end with a space.
* `Completion.trimSnippet_lexed`: trimming cuts off a part of the gap at the end.
* `Completion.partialParse_lexed`: what the parser is fed of a snippet.
-/
namespace Caret

namespace Completion

variable {g : Grammar} {depth : Nat} {text rest : Text} {t : Token} {ts : List Token}

/-- Trimming cuts off the spaces and tabs behind a text that neither starts nor ends with one. -/
theorem trim_append {core : Text} {c d : Char} (gap : Text) (first : core.head? = some c)
    (last : core.getLast? = some d) (hc : isPadding c = false) (hd : isPadding d = false) :
    ∃ pad padding, gap = pad ++ padding ∧ (∀ c ∈ padding, isPadding c = true) ∧
      (((core ++ gap).dropWhile isPadding).reverse.dropWhile isPadding).reverse = core ++ pad := by
  obtain ⟨tail, rfl⟩ := List.head?_eq_some_iff.1 first
  refine ⟨(gap.reverse.dropWhile isPadding).reverse, (gap.reverse.takeWhile isPadding).reverse,
    ?_, fun c hc => ?_, ?_⟩
  · rw [← List.reverse_append, List.takeWhile_append_dropWhile, List.reverse_reverse]
  · exact List.mem_takeWhile_imp (List.mem_reverse.1 hc)
  · obtain ⟨front, whole⟩ := List.getLast?_eq_some_iff.1 last
    have ends : (c :: tail).reverse.dropWhile isPadding = (c :: tail).reverse := by
      rw [whole, List.reverse_concat, List.dropWhile_cons, if_neg (by rw [hd]; decide)]
    rw [List.cons_append, List.dropWhile_cons, if_neg (by rw [hc]; decide), ← List.cons_append,
      List.reverse_append, List.dropWhile_append, ends]
    split
    · next none =>
      rw [List.isEmpty_iff.1 none, List.reverse_reverse]
      simp
    · rw [List.reverse_append, List.reverse_reverse]

/-- The first of the tokens starts with a visible character, if there is no gap before it. -/
theorem lexed_first (h : Lexed depth text (t :: ts) rest) (bare : t.trivia = [])
    (free : '\r' ∉ text) :
    ∃ c, (Token.concat (t :: ts)).head? = some c ∧ isPadding c = false := by
  have whole := h.text_eq
  cases h with
  | @cons _ tail _ c _ _ inner gap kind value more =>
    rw [bare] at gap whole
    have stops := gap.stops (inner.first kind).1 false
    have visible : isPadding c = false := by
      unfold isPadding
      rw [Bool.or_eq_false_iff, beq_eq_false_iff_ne, beq_eq_false_iff_ne]
      constructor <;> rintro rfl <;> cases stops
    have pos : 0 < (Scanner.lexeme c tail).length :=
      Scanner.lexeme_pos fun h => free (h ▸ List.mem_append_right _ List.mem_cons_self)
    obtain ⟨n, length⟩ := Nat.exists_eq_add_of_lt pos
    rw [Nat.zero_add] at length
    rw [Token.concat_cons, bare, value, length]
    exact ⟨c, rfl, visible⟩

/-- The last of the tokens does not end with a space or a tab. -/
theorem lexed_last (h : Lexed depth text ts rest) (nonempty : ts ≠ []) (free : '\r' ∉ text) :
    ∃ d, (Token.concat ts).getLast? = some d ∧ d ≠ ' ' ∧ d ≠ '\t' := by
  induction h with
  | nil => exact absurd rfl nonempty
  | @cons depth tail rest c t ts inner gap kind value more ih =>
    have noReturn : '\r' ∉ c :: tail := fun h => free (List.mem_append_right _ h)
    have start : c ≠ '\r' := fun h => noReturn (h ▸ List.mem_cons_self)
    have error : (Scanner.lexeme c tail).kind ≠ .error := kind ▸ inner.kind.2
    cases ts with
    | nil =>
      obtain ⟨d, last, visible⟩ := Scanner.lexeme_last error start
      have pos : 0 < (Scanner.lexeme c tail).length := Scanner.lexeme_pos start
      have le := Scanner.lexeme_length_le error start
      have ends : t.value.getLast? = some d := by
        rw [value, List.getLast?_eq_getElem?, List.length_take, List.length_cons,
          Nat.min_eq_left le, List.getElem?_take_of_lt (Nat.sub_lt pos Nat.one_pos), last]
      have only : Token.concat [t] = t.trivia ++ t.value := List.append_nil _
      exact ⟨d, by rw [only, List.getLast?_append, ends]; rfl, visible⟩
    | cons u us =>
      obtain ⟨d, last, visible⟩ := ih (List.cons_ne_nil u us)
        fun h => noReturn (List.mem_of_mem_drop h)
      exact ⟨d, by rw [Token.concat_cons, List.getLast?_append, last]; rfl, visible⟩

/-- Trimming cuts off a part of the gap behind the last token. -/
theorem trimSnippet_lexed (h : Lexed 0 text (t :: ts) rest) (bare : t.trivia = [])
    (gap : Scanner.Gap (0 < depthBehind 0 (t :: ts)) false rest []) (free : '\r' ∉ text)
    (noSemi : t.kind ≠ .op .semi) : ∃ rest', Lexed 0 (trimSnippet text) (t :: ts) rest' ∧
      Scanner.Gap (0 < depthBehind 0 (t :: ts)) false rest' [] ∧ '\r' ∉ trimSnippet text := by
  obtain ⟨c, first, hc⟩ := lexed_first h bare free
  obtain ⟨d, last, noSpace, noTab⟩ := lexed_last h (List.cons_ne_nil t ts) free
  obtain ⟨pad, padding, rfl, blank, trimmed⟩ := trim_append rest first last hc
    (by simp [isPadding, noSpace, noTab])
  rw [← h.text_eq] at trimmed
  have cut := h.cut free
  have noStatement : Token.concat (t :: ts) ++ pad ≠ [';'] := by
    intro semi
    rw [semi] at cut
    generalize hs : [';'] = code at cut
    cases cut with
    | cons _ _ kind =>
      rw [bare] at hs
      cases hs
      exact noSemi (kind.trans (by decide))
  have same : trimSnippet text = Token.concat (t :: ts) ++ pad := by
    unfold trimSnippet
    dsimp only
    rw [trimmed, if_neg noStatement]
  rw [same]
  exact ⟨pad, cut, gap.trim fun c hc => by simpa [isPadding] using blank c hc, h.free_cut free⟩

/-- What the parser is fed of tokens that a part of a source begins with, up to the gap behind
them. -/
theorem partialParse_lexed (ok : g.Consistent) (lay : g.Layered)
    (h : Lexed 0 text (t :: ts) rest) (bare : t.trivia = [])
    (gap : Scanner.Gap (0 < depthBehind 0 (t :: ts)) false rest []) (free : '\r' ∉ text)
    (noSemi : t.kind ≠ .op .semi) :
    ∃ us, us.map Parser.face = (t :: ts).map Parser.face ∧
      partialParse g (trimSnippet text) = .ok (Parser.feedFrom g (.new g) us).stack := by
  obtain ⟨rest', lexed, ends, noReturn⟩ := trimSnippet_lexed h bare gap free noSemi
  obtain ⟨body, last, tokens, marker, faces⟩ := lexed.tokenize bare ends noReturn
  have kinds : ∀ u ∈ body, u.IsInner := by
    intro u hu
    have same : Parser.face u ∈ (t :: ts).map Parser.face := faces ▸ List.mem_map_of_mem hu
    obtain ⟨v, hv, same⟩ := List.mem_map.1 same
    have kind : v.kind = u.kind := congrArg Prod.fst same
    have own := h.inner v hv
    unfold Token.IsInner at own ⊢
    rwa [kind] at own
  have before : ∀ u ∈ body, u.kind ≠ .endMarker := by
    intro u hu marker
    have own := kinds u hu
    simp [Token.IsInner, marker] at own
  have all : fedTokens body = body := by
    refine List.filter_eq_self.2 fun u hu => ?_
    have own := kinds u hu
    simp only [Token.IsInner, List.mem_cons, not_or] at own
    simpa using own.2.2.1
  obtain ⟨ready, -⟩ := Parser.ready_new ok
  refine ⟨body, faces, ?_⟩
  rw [partialParse, tokens, drive_ok ok lay before marker ready, all]

end Completion

end Caret

import Caret.Proofs.Faults
import Caret.Proofs.Slices
import Caret.Proofs.Snippets
/-!
# Completion agrees with the parse of the source

A position in a part of a simple statement, at the start or the end of a token, cuts the tokens of
the source. The snippet that is parsed there starts with the part and holds the tokens of it up to
the position. So the frames that it leaves open are those of the source parse down to the frame of
the simple statement, and that one may not end: the same may come next as in the parse of the
source, and the token that comes next is among it.

Results:
* `CutAt`: what a position leaves of the tokens before it, and the gap behind them.
* `CutAt.filter_eq`: the tokens that end at the position or before it.
* `Part.next`: what comes behind tokens of a part.
* `Completion.PartAt.place`: the part that a position is in, in a source parsed without recovery.
* `Completion.stackAt_agrees`: what may come next at a position in a part of a simple statement.
-/
namespace Caret

/-! ## The text between two places -/

namespace Module

variable {source u v w : Text}

theorem completed_free (free : '\r' ∉ source) : '\r' ∉ completed source := by
  unfold completed
  split
  · exact free
  · simpa using free

/-- What something follows in the completed source is a beginning of the source. -/
theorem prefix_of_more (whole : completed source = u ++ w) (more : w ≠ []) : u <+: source := by
  unfold completed at whole
  split at whole
  · exact ⟨w, whole.symm⟩
  · obtain ⟨rest, last, rfl⟩ := (List.eq_nil_or_concat w).resolve_left more
    rw [List.concat_eq_append, ← List.append_assoc] at whole
    exact ⟨rest, (List.append_inj' whole rfl).1.symm⟩

/-- The text of a source between two places, if something follows. -/
theorem between_completed (whole : completed source = u ++ v ++ w) (more : w ≠ [])
    (free : '\r' ∉ source) :
    source.between (Position.start.advancedBy u) (Position.start.advancedBy (u ++ v)) = v := by
  obtain ⟨rest, rfl⟩ := prefix_of_more whole more
  exact Text.between_advancedBy (.of_free free)

end Module

/-! ## Cuts -/

/-- The position is the end of a token of a logical line or the start of the next one: so many
tokens are before it, and this gap behind them. -/
inductive CutAt (T : List Token) : Nat → Text → Position → Prop
  | behind {n : Nat} {t : Token} (h : T[n]? = some t) (inner : t.IsInner) :
      CutAt T (n + 1) [] t.stop
  | before {n : Nat} {t : Token} (h : T[n]? = some t) (inner : t.IsInner) :
      CutAt T n t.trivia t.start

namespace CutAt

variable {T : List Token} {n : Nat} {gap : Text} {pos : Position} {u : Token}

/-- The tokens before a number, the token and those behind it. -/
theorem split_at (h : T[n]? = some u) : T = T.take n ++ u :: T.drop (n + 1) := by
  obtain ⟨lt, rfl⟩ := List.getElem?_eq_some_iff.1 h
  rw [List.getElem_cons_drop, List.take_append_drop]

theorem take_succ_eq (h : T[n]? = some u) : T.take (n + 1) = T.take n ++ [u] := by
  rw [List.take_add_one, h]
  rfl

/-- A token of a logical line starts behind the tokens before it and its trivia. -/
theorem start_eq (placed : Placed .start T) (h : T[n]? = some u) (inner : u.IsInner) :
    u.start = Position.start.advancedBy (Token.concat (T.take n) ++ u.trivia) := by
  rw [split_at h] at placed
  exact placed.start_eq inner.not_layout

/-- A cut is behind the text of the tokens and the gap. -/
theorem place (placed : Placed .start T) (h : CutAt T n gap pos) :
    pos = Position.start.advancedBy (Token.concat (T.take n) ++ gap) := by
  cases h with
  | before h inner => exact start_eq placed h inner
  | behind h inner =>
    have only (t : Token) : Token.concat [t] = t.trivia ++ t.value := List.append_nil _
    rw [take_succ_eq h, Token.concat_append, only, List.append_nil, ← List.append_assoc,
      Position.advancedBy_append, ← start_eq placed h inner, Token.stop]

/-- The tokens that end at a cut or before it. -/
theorem filter_eq (placed : Placed .start T) (h : CutAt T n gap pos) (next : T[n]? = some u)
    (value : u.value ≠ []) : T.filter (·.stop ≤ pos) = T.take n := by
  have ordered := placed.ordered
  rw [split_at next] at ordered
  obtain ⟨front, later, earlier⟩ := List.pairwise_append.1 ordered
  -- the tokens before the cut end there at the latest, and the next one does not start before it
  obtain ⟨before, upTo⟩ : (∀ t ∈ T.take n, t.stop ≤ pos) ∧ pos ≤ u.start := by
    cases h with
    | before h =>
      rw [h] at next
      cases next
      exact ⟨fun t ht => earlier t ht _ List.mem_cons_self, Position.le_refl _⟩
    | @behind m last h =>
      rw [take_succ_eq h] at front earlier ⊢
      have final : last ∈ T.take m ++ [last] := List.mem_append_right _ (List.mem_singleton_self _)
      refine ⟨fun t ht => ?_, earlier _ final _ List.mem_cons_self⟩
      rcases List.mem_append.1 ht with ht | ht
      · have before := (List.pairwise_append.1 front).2.2 t ht _ (List.mem_singleton_self _)
        exact Position.le_trans before last.start_le_stop
      · rw [List.mem_singleton.1 ht]
        exact Position.le_refl _
  have wide : u.start < u.stop := Position.lt_advancedBy _ value
  have behind : ∀ t ∈ u :: T.drop (n + 1), ¬ t.stop ≤ pos := by
    intro t ht
    have reaches : u.stop ≤ t.stop := by
      rcases List.mem_cons.1 ht with rfl | ht
      · exact Position.le_refl _
      · exact Position.le_trans ((List.pairwise_cons.1 later).1 t ht) t.start_le_stop
    simp only [Position.le_def, Position.lt_def] at upTo wide reaches ⊢
    omega
  conv_lhs => rw [split_at next]
  rw [List.filter_append, List.filter_eq_self.2, List.filter_eq_nil_iff.2, List.append_nil]
  · intro t ht
    simpa using behind t ht
  · intro t ht
    simpa using before t ht

/-- Behind a cut comes the text of the next token, at least. -/
theorem rest (h : CutAt T n gap pos) (next : T[n]? = some u) (value : u.value ≠ []) :
    ∃ w, w ≠ [] ∧ Token.concat T = Token.concat (T.take n) ++ gap ++ w := by
  conv in Token.concat T => rw [split_at next, Token.concat_append, Token.concat_cons]
  cases h with
  | before h =>
    rw [h] at next
    cases next
    exact ⟨u.value ++ Token.concat (T.drop (n + 1)), by simp [value], by simp⟩
  | @behind m =>
    exact ⟨u.trivia ++ u.value ++ Token.concat (T.drop (m + 1 + 1)), by simp [value], by simp⟩

/-- The tokens from some token of a logical line up to a cut, read alone. -/
theorem lexed {i : Nat} {t : Token} {lineStart : Bool} {text : Text} (h : CutAt T n gap pos)
    (scanned : Scanned 0 lineStart text T) (free : '\r' ∉ text) (first : T[i]? = some t)
    (flat : depthBehind 0 (T.take i) = 0) (le : i < n)
    (inner : ∀ m, i ≤ m → m < n → ∀ u, T[m]? = some u → u.IsInner) :
    ∃ ts, (T.take n).drop i = t :: ts ∧
      Lexed 0 (Token.concat (t.bare :: ts) ++ gap)
        (t.bare :: ts) gap ∧
      Scanner.Gap (0 < depthBehind 0 (t.bare :: ts)) false gap [] ∧
      '\r' ∉ Token.concat (t.bare :: ts) ++ gap := by
  have upTo := Parser.slice_cons first le
  generalize hts : (T.take n).drop (i + 1) = ts at upTo
  have tokens : T = T.take i ++ (t :: ts ++ T.drop n) := by
    rw [← upTo, ← List.append_assoc, ← Parser.take_slice le.le, List.take_append_drop]
  have members : ∀ u ∈ t :: ts, u.IsInner := by
    rw [← upTo]
    intro u hu
    obtain ⟨m, from_, upTo, token⟩ := Parser.mem_slice hu
    exact inner m from_ upTo u token
  rw [tokens, List.cons_append] at scanned
  obtain ⟨lineStart', text', rfl, inside⟩ := scanned.drop
  rw [flat, ← List.cons_append] at inside
  have noReturn : '\r' ∉ text' := fun h => free (List.mem_append_right _ h)
  refine ⟨ts, upTo, ?_⟩
  cases h with
  | behind =>
    obtain ⟨bare, rest, whole, lexed⟩ := inside.lexed_bare members noReturn
    have bareFree : '\r' ∉ bare := fun h => noReturn (whole ▸ List.mem_append_right _ h)
    exact ⟨lexed.cut (z := []) bareFree, .done, lexed.free_cut (z := []) bareFree⟩
  | @before _ u h own =>
    have next : T.drop n = [u] ++ T.drop (n + 1) := by
      rw [List.drop_eq_getElem?_toList_append, h]
      rfl
    rw [next, ← List.append_assoc, List.cons_append] at inside
    have all : ∀ v ∈ t :: (ts ++ [u]), v.IsInner := by
      rw [← List.cons_append, List.forall_mem_append]
      exact ⟨members, by simpa using own⟩
    obtain ⟨bare, rest, whole, lexed⟩ := inside.lexed_bare all noReturn
    rw [← List.cons_append] at lexed
    obtain ⟨behind, front, gap⟩ := lexed.before_last
    have bareFree : '\r' ∉ bare := fun h => noReturn (whole ▸ List.mem_append_right _ h)
    exact ⟨front.cut bareFree, gap.end_, front.free_cut bareFree⟩

/-- The text of a source from the start of a token up to a cut behind it. -/
theorem between {source : Text} {i : Nat} {t : Token} {ts : List Token} (h : CutAt T n gap pos)
    (hT : tokenize (Module.completed source) = T) (free : '\r' ∉ source) (first : T[i]? = some t)
    (inner : t.IsInner) (le : i < n) (slice : (T.take n).drop i = t :: ts)
    (next : T[n]? = some u) (value : u.value ≠ []) :
    source.between t.start pos = Token.concat (t.bare :: ts) ++ gap := by
  have placed := tokenize_placed (Module.completed source)
  have whole := concat_tokenize (Module.completed source)
  rw [hT] at placed whole
  obtain ⟨w, more, behind⟩ := h.rest next value
  have tokens : Token.concat (T.take n) ++ gap = Token.concat (T.take i) ++ t.trivia ++
      (Token.concat (t.bare :: ts) ++ gap) := by
    rw [Parser.take_slice le.le, slice, Token.concat_append, Token.concat_cons, Token.concat_cons]
    simp
  rw [start_eq placed first inner, h.place placed, tokens]
  rw [tokens] at behind
  exact Module.between_completed (whole.symm.trans behind) more free

end CutAt

namespace Parser

variable {g : Grammar} {T : List Token} {i j n : Nat} {tree : Tree} {u : Token} {label : Nat}
  {pos : Position} {p q : Parser}

/-! ## Tokens of a part -/

/-- A token that may be in a part is inside a logical line, and no semicolon. -/
theorem inner_of_inline (plain : g.Plain) (class_ : classify g u = some label)
    (inline : g.Inline label) : u.IsInner ∧ u.kind ≠ .op .semi := by
  by_cases name : u.kind = .name
  · simp [Token.IsInner, name]
  have own := classify_token class_ name
  have none : u.kind ∉ Grammar.lineKinds := fun kind => inline _ kind own
  have read : u.kind ≠ .error := fun error => plain label (error ▸ own)
  simp only [Grammar.lineKinds, Grammar.partEnds, List.cons_append, List.nil_append,
    List.mem_cons, List.not_mem_nil, or_false, not_or] at none
  simp [Token.IsInner, none, read]

theorem Part.inner (plain : g.Plain) (part : Part g T i j tree) (from_ : i ≤ n) (upTo : n < j) :
    ∃ u, T[n]? = some u ∧ u.IsInner ∧ u.kind ≠ .op .semi := by
  obtain ⟨u, label, token, class_, inline⟩ := part.inline n from_ upTo
  exact ⟨u, token, inner_of_inline plain class_ inline⟩

/-- A part starts with its first token. -/
theorem Part.start_eq (part : Part g T i j tree) (formed : tree.Formed g) :
    i < j ∧ ∃ t, T[i]? = some t ∧ tree.start = t.start := by
  obtain ⟨l, head, start⟩ := formed.start_eq
  rw [part.leaves, List.head?_map, List.head?_drop, List.getElem?_take] at head
  split at head
  · next some =>
    obtain ⟨t, token, rfl⟩ := Option.map_eq_some_iff.1 head
    exact ⟨some, t, token, start⟩
  · cases head

/-- The start or the end of a token of a part, behind its start, is a cut. -/
theorem Part.cut {l : Leaf} (plain : g.Plain) (part : Part g T i j tree) (formed : tree.Formed g)
    (hl : l ∈ tree.leaves) (at_ : pos = l.start ∨ pos = l.stop) (after : tree.start < pos) :
    ∃ n gap, i < n ∧ n ≤ j ∧ CutAt T n gap pos := by
  obtain ⟨some, t, first, start⟩ := part.start_eq formed
  rw [part.leaves] at hl
  obtain ⟨u, hu, rfl⟩ := List.mem_map.1 hl
  obtain ⟨m, from_, upTo, token⟩ := mem_slice hu
  obtain ⟨u', token', inner, -⟩ := part.inner plain from_ upTo
  rw [token] at token'
  cases token'
  rcases at_ with rfl | rfl
  · refine ⟨m, u.trivia, ?_, upTo.le, .before token inner⟩
    by_contra bottom
    obtain rfl : m = i := by omega
    rw [token] at first
    cases first
    have same : tree.start < tree.start := by
      conv_rhs => rw [start]
      exact after
    simp [Position.lt_def] at same
  · exact ⟨m + 1, [], by omega, upTo, .behind token inner⟩

/-- A part ends before the end marker. -/
theorem Part.short {body : List Token} {last : Token} (tokens : T = body ++ [last])
    (marker : last.kind = .endMarker) (part : Part g T i j tree) (from_ : i < n) (upTo : n ≤ j) :
    n < T.length := by
  obtain ⟨v, label, token, class_, inline⟩ := part.inline (n - 1) (by omega) (by omega)
  by_contra long
  have length : T.length = body.length + 1 := by rw [tokens, List.length_append]; rfl
  have lt := (List.getElem?_eq_some_iff.1 token).1
  have final : T[n - 1]? = some last := by
    rw [show n - 1 = body.length by omega, tokens]
    simp
  rw [token] at final
  cases final
  have own := classify_token class_ (by rw [marker]; decide)
  rw [marker] at own
  exact inline .endMarker (by decide) own

/-- What may be in a part or behind it is no block token and no end marker. -/
theorem not_block (class_ : classify g u = some label)
    (allowed : g.Inline label ∨ ∃ kind ∈ Grammar.partEnds, g.label? label = some (.token kind)) :
    ¬ u.IsLayout ∧ u.kind ≠ .endMarker := by
  have kinds : ∀ kind ∈ [TokenKind.indent, .dedent, .endMarker], u.kind ≠ kind := by
    rintro kind hkind rfl
    have own := classify_token class_ fun name => by simp [name] at hkind
    rcases allowed with inline | ⟨kind, ends, token⟩
    · exact inline u.kind (List.mem_append_right _ hkind) own
    · rw [own] at token
      cases token
      have apart : ∀ kind ∈ [TokenKind.indent, .dedent, .endMarker], kind ∉ Grammar.partEnds := by
        decide
      exact apart u.kind hkind ends
  refine ⟨fun layout => ?_, kinds _ (by decide)⟩
  rcases layout.kind with kind | kind
  · exact kinds _ (by decide) kind
  · exact kinds _ (by decide) kind

/-- Behind tokens of a part comes a token that fits, and that has a text. -/
theorem Part.next {r : RuleTable} {body : List Token} {last : Token} (ok : g.Consistent)
    (stated : g.Stated) (reads : Reads g (new g) T) (tokens : T = body ++ [last])
    (marker : last.kind = .endMarker) (part : Part g T i j tree) (from_ : i < n) (upTo : n ≤ j)
    (name : r.name = "simple_stmt") (alike : Alike (r, 1) (fed g (T.take n)) q) :
    ∃ u label, T[n]? = some u ∧ classify g u = some label ∧
      Fits g label (fed g (T.take n)).spine ∧ ¬ u.IsLayout ∧ u.kind ≠ .endMarker := by
  obtain ⟨u, token⟩ : ∃ u, T[n]? = some u :=
    ⟨_, List.getElem?_eq_getElem (part.short tokens marker from_ upTo)⟩
  rw [CutAt.split_at token] at reads
  obtain ⟨-, behind⟩ := reads.split
  cases behind with
  | @cons _ _ _ label done before class_ answer runs rest =>
  have fits := (runs.shifted_iff ok).1 ⟨_, rfl⟩
  rw [spine_count] at fits
  refine ⟨u, label, token, class_, fits, not_block class_ ?_⟩
  obtain ⟨above, below, -, spine, -⟩ := alike
  have known := known_fed ok (T.take n)
  have linked : Linked g (fed g (T.take n)).spine :=
    (linked_new ok).feedFrom ok (known_new g) (T.take n)
  have fits : Fits g label (fed g (T.take n)).spine := fits
  rw [spine] at fits linked
  rw [Known, spine] at known
  exact fits_inline ok stated known name (linked.inside stated known name) fits

end Parser

namespace Completion

variable {g : Grammar} {p : Parser} {label : Nat}

/-- What may come next holds the label of a token that fits. -/
theorem expected_fits (ok : g.Consistent) (known : Parser.Known g p)
    (terminal : g.isTerminal label = true) (fits : Parser.Fits g label p.spine) :
    ∃ e, expected g p.stack = .ok e ∧ e.Holds g label := by
  have nothing : Expected.nothing.Closed g := fun hi => absurd hi List.not_mem_nil
  obtain ⟨e, scanned, -, holds⟩ := Expected.scan_gathers ok known .nothing nothing
  refine ⟨e.sorted, by rw [expected, scanned]; rfl, ?_⟩
  rw [Expected.holds_sorted, holds label terminal]
  exact .inr fits

/-- A position behind the start of a part belongs to the part. -/
theorem locate_part {follow : RuleTable → Nat → Prop} {T : List Token} {m : Module} {f : Focus}
    {ts : List Tree} {pos : Position} (ok : g.Consistent) (ll : g.Predictive follow)
    (closed : g.Sealed) (stated : g.Stated) (worded : g.Worded) (apart : NamesApart g)
    (grown : Parser.Grown g T m.root) (root : m.root = .branch "file_input" ts)
    (formed : m.root.Formed g) (ordered : m.root.leaves.Pairwise Leaf.Before)
    (whole : f.whole = m.root) (parent : f.parentTitle? = some "simple_stmt")
    (part : ∀ l, f.tree = .leaf l → l.kind ≠ .newline ∧ l.kind ≠ .operator .semi)
    (after : f.tree.start < pos) (upTo : pos ≤ f.tree.stop) : locate m pos = .ok (.node f) := by
  rw [← whole] at grown root
  obtain ⟨inside, around⟩ := Parser.around_part ok ll closed stated grown root parent
  have stops := Parser.part_stops stated grown parent
  have title := Parser.part_title stated worded apart grown parent part
  have found := Module.statementAt?_place formed ordered whole inside around after upTo stops
  simp only [List.mem_cons, List.not_mem_nil, or_false, not_or] at title
  rw [locate_statement found after (by simp [title]), if_neg (by simp [title])]

theorem stackAt_node {source : Text} {m : Module} {pos : Position} {place : Focus}
    (h : locate m pos = .ok (.node place)) : stackAt g source m pos =
      partialParse g (trimSnippet (source.between place.tree.start pos)) := by
  have snippet : snippetAt source m pos =
      .ok (trimSnippet (source.between place.tree.start pos)) := by
    rw [snippetAt, h]
    rfl
  rw [stackAt, snippet]
  exact pure_bind (m := Except CompletionError) _ _

/-- From the start of a part up to a cut the text is parsed like the source: the same may come next,
and the token that does is among it. -/
theorem part_agrees {w : RuleTable → Nat → Nat} {follow : RuleTable → Nat → Prop}
    {source gap : Text} {T : List Token} {i j n : Nat} {tree : Tree} {t : Token} {pos : Position}
    (ok : g.Consistent) (lay : g.Layered) (ll : g.Predictive follow) (plain : g.Plain)
    (br : g.Bracketed w) (stated : g.Stated) (hT : tokenize (Module.completed source) = T)
    (free : '\r' ∉ source) (reads : Parser.Reads g (.new g) T) (part : Parser.Part g T i j tree)
    (first : T[i]? = some t) (from_ : i < n) (upTo : n ≤ j) (cut : CutAt T n gap pos) :
    ∃ stack e before next after label,
      partialParse g (trimSnippet (source.between t.start pos)) = .ok stack ∧
      expected g stack = .ok e ∧ T = before ++ next :: after ∧
      before = T.filter (·.stop ≤ pos) ∧ expected g (Parser.fed g before).stack = .ok e ∧
      Parser.classify g next = some label ∧ e.Holds g label := by
  obtain ⟨body, last, tokens, marker, -⟩ := tokenize_eq (Module.completed source)
  have scanned := tokenize_scanned (Module.completed source)
  have placed := tokenize_placed (Module.completed source)
  have noReturn := Module.completed_free free
  rw [hT] at tokens scanned placed
  have inner : ∀ m, i ≤ m → m < n → ∀ u, T[m]? = some u → u.IsInner ∧ u.kind ≠ .op .semi := by
    intro m lower upper u token
    obtain ⟨u', token', own⟩ := part.inner plain lower (by omega)
    rw [token] at token'
    cases token'
    exact own
  obtain ⟨own, noSemi⟩ := inner i (Nat.le_refl i) from_ t first
  -- the tokens of the part up to the cut are those of the snippet
  obtain ⟨ts, slice, lexed, ends, bareFree⟩ := cut.lexed scanned noReturn first
    (part.depth ok br stated reads) from_ fun m lower upper u token =>
      (inner m lower upper u token).1
  obtain ⟨us, faces, parsed⟩ := partialParse_lexed ok lay lexed rfl ends bareFree noSemi
  -- above the frame of the simple statement the open frames are those of the source
  have sameFaces : ((T.take n).drop i).map Parser.face = us.map Parser.face := by
    rw [slice, faces]
    rfl
  obtain ⟨r, known, name, alike⟩ := part.alike ok ll stated reads from_ upTo sameFaces
  have same : expected g (Parser.fed g (T.take n)).stack = expected g (Parser.fed g us).stack :=
    expected_alike (stated.behind known name).1 alike
  obtain ⟨next, label, token, class_, fits, lexeme, before⟩ :=
    part.next ok stated reads tokens marker from_ upTo name alike
  have value := scanned.value_ne_nil noReturn (List.mem_of_getElem? token) lexeme before
  obtain ⟨e, expects, holds⟩ := expected_fits ok (Parser.known_fed ok _)
    (Parser.classify_terminal class_) fits
  refine ⟨_, e, _, next, _, label, ?_, same.symm.trans expects, CutAt.split_at token,
    (cut.filter_eq placed token value).symm, expects, class_, holds⟩
  rw [cut.between hT free first own from_ slice token value]
  exact parsed

/-- The position is in a part of a simple statement, a child that is no line end and no semicolon,
or at the end of it. -/
structure PartAt (m : Module) (pos : Position) (f : Focus) : Prop where
  whole : f.whole = m.root
  parent : f.parentTitle? = some "simple_stmt"
  single : ∀ l, f.tree = .leaf l → l.kind ≠ .newline ∧ l.kind ≠ .operator .semi
  after : f.tree.start < pos
  upTo : pos ≤ f.tree.stop

/-- Without recovery a part of a simple statement is found at the positions in it, and it is built
of tokens. -/
theorem PartAt.place {source : Text} {m : Module} {f : Focus} {pos : Position}
    (parsed : Module.parse Grammar.pythonTables source = .ok m)
    (clean : Parser.Clean Grammar.pythonTables (.new Grammar.pythonTables)
      (tokenize (Module.completed source)))
    (h : PartAt m pos f) : locate m pos = .ok (.node f) ∧ f.tree.Formed Grammar.pythonTables ∧
      Parser.Reads Grammar.pythonTables (.new Grammar.pythonTables)
        (tokenize (Module.completed source)) ∧
      ∃ i j, Parser.Part Grammar.pythonTables (tokenize (Module.completed source)) i j f.tree := by
  have ok := Grammar.python_consistent
  have lay := Grammar.python_layered
  have closed := Grammar.python_sealed
  have stated := Grammar.python_stated
  obtain ⟨body, last, tokens, -, inner⟩ := tokenize_eq (Module.completed source)
  have reads := clean.reads ok lay (Parser.steadfast_new ok)
    (by rwa [tokens, List.dropLast_concat])
  obtain ⟨grown, ts, root⟩ := Parser.clean_grown ok lay closed parsed clean
  have shape := (Module.parse_formed ok lay closed parsed).1
  have located := locate_part ok Grammar.python_predictive closed stated Grammar.python_worded
    python_namesApart grown root shape (Module.leaves_ordered ok lay parsed) h.whole h.parent
    h.single h.after h.upTo
  exact ⟨located, Focus.formed (h.whole.symm ▸ shape), reads,
    Parser.part_built stated (h.whole.symm ▸ grown) h.parent h.single⟩

/-- At the start or the end of a token of a part the same may come next as in the parse of the
source behind the tokens that end there or before, and the token that comes next is among it. -/
theorem PartAt.agrees {source : Text} {m : Module} {f : Focus} {pos : Position} {l : Leaf}
    (free : '\r' ∉ source) (parsed : Module.parse Grammar.pythonTables source = .ok m)
    (clean : Parser.Clean Grammar.pythonTables (.new Grammar.pythonTables)
      (tokenize (Module.completed source)))
    (h : PartAt m pos f) (hl : l ∈ f.tree.leaves) (at_ : pos = l.start ∨ pos = l.stop) :
    ∃ stack e before next after label,
      stackAt Grammar.pythonTables source m pos = .ok stack ∧
      expected Grammar.pythonTables stack = .ok e ∧
      tokenize (Module.completed source) = before ++ next :: after ∧
      before = (tokenize (Module.completed source)).filter (·.stop ≤ pos) ∧
      expected Grammar.pythonTables (Parser.fed Grammar.pythonTables before).stack = .ok e ∧
      Parser.classify Grammar.pythonTables next = some label ∧
      e.Holds Grammar.pythonTables label := by
  obtain ⟨located, formed, reads, i, j, part⟩ := h.place parsed clean
  obtain ⟨-, t, first, start⟩ := part.start_eq formed
  obtain ⟨n, gap, from_, upTo, cut⟩ := part.cut Server.python_plain formed hl at_ h.after
  obtain ⟨stack, e, before, next, behind, label, stacked, rest⟩ := part_agrees
    Grammar.python_consistent Grammar.python_layered Grammar.python_predictive Server.python_plain
    Grammar.python_bracketed Grammar.python_stated rfl free reads part first from_ upTo cut
  refine ⟨stack, e, before, next, behind, label, ?_, rest⟩
  rw [← start] at stacked
  exact (stackAt_node located).trans stacked

/-- In a source without carriage returns that is parsed without recovery take a child of a simple
statement, no semicolon and no line end, and a position behind its start that is the start or the
end of a token of it. The same may come next there as in the parse of the source behind the tokens
that end at the position or before it, and the token that comes next is among it. -/
theorem stackAt_agrees (source : Text) (free : '\r' ∉ source) : ∃ g m, Grammar.python = .ok g ∧
    Module.parse g source = .ok m ∧
      (Parser.Clean g (.new g) (tokenize (Module.completed source)) →
        ∀ f : Focus, f.whole = m.root → f.parentTitle? = some "simple_stmt" →
        (∀ l, f.tree = .leaf l → l.kind ≠ .newline ∧ l.kind ≠ .operator .semi) →
        ∀ l ∈ f.tree.leaves, ∀ pos, pos = l.start ∨ pos = l.stop → f.tree.start < pos →
        pos ≤ f.tree.stop → ∃ stack e before next after label,
          stackAt g source m pos = .ok stack ∧ expected g stack = .ok e ∧
          tokenize (Module.completed source) = before ++ next :: after ∧
          before = (tokenize (Module.completed source)).filter (·.stop ≤ pos) ∧
          expected g (Parser.fed g before).stack = .ok e ∧
          Parser.classify g next = some label ∧ e.Holds g label) := by
  obtain ⟨m, parsed, -⟩ :=
    Module.parse_of_layered Grammar.python_consistent Grammar.python_layered source
  refine ⟨_, m, Grammar.python_eq, parsed, ?_⟩
  intro clean f whole parent single l hl pos at_ after upTo
  exact PartAt.agrees free parsed clean ⟨whole, parent, single, after, upTo⟩ hl at_

/-- The parts of simple statements that a position is in and that have a leaf as a child. -/
def partsAt (m : Module) (pos : Position) : List Focus :=
  ((Focus.root m.root).leaves.filterMap Focus.parent?).filter fun f =>
    f.parentTitle? == some "simple_stmt" && decide (f.tree.start < pos) &&
      decide (pos ≤ f.tree.stop)

theorem mem_partsAt {m : Module} {pos : Position} {f : Focus} (h : f ∈ partsAt m pos) :
    PartAt m pos f := by
  obtain ⟨member, around⟩ := List.mem_filter.1 h
  obtain ⟨leaf, hleaf, up⟩ := List.mem_filterMap.1 member
  obtain ⟨whole, -⟩ := Focus.whole_of_mem_leaves hleaf
  simp only [Bool.and_eq_true, beq_iff_eq, decide_eq_true_eq] at around
  obtain ⟨⟨parent, after⟩, upTo⟩ := around
  obtain ⟨t, path⟩ := leaf
  cases path with
  | nil => cases up
  | cons crumb path =>
    cases up
    exact ⟨whole, parent, nofun, after, upTo⟩

/-- In an assignment inside a block, behind the equals sign. -/
theorem stackAt_assigned : ∃ g m, Grammar.python = .ok g ∧
    Module.parse g "if x:\n    y = f(1)\n".toList = .ok m ∧
    ∃ stack e before next after label,
      stackAt g "if x:\n    y = f(1)\n".toList m ⟨2, 8⟩ = .ok stack ∧ expected g stack = .ok e ∧
      tokenize "if x:\n    y = f(1)\n".toList = before ++ next :: after ∧
      expected g (Parser.fed g before).stack = .ok e ∧
      Parser.classify g next = some label ∧ e.Holds g label := by
  obtain ⟨g, m, python, parsed, agrees⟩ :=
    stackAt_agrees "if x:\n    y = f(1)\n".toList (by decide)
  obtain rfl : Grammar.pythonTables = g := by
    rw [Grammar.python_eq] at python
    exact Except.ok.inj python
  have clean : Parser.Clean Grammar.pythonTables (.new Grammar.pythonTables)
      (tokenize (Module.completed "if x:\n    y = f(1)\n".toList)) := by
    decide +kernel
  have found : (Module.parse Grammar.pythonTables "if x:\n    y = f(1)\n".toList).toOption.any
      (fun m => (partsAt m ⟨2, 8⟩).any fun f => f.tree.leaves.any (·.start == ⟨2, 8⟩)) = true := by
    decide +kernel
  rw [parsed, Except.toOption, Option.any_some] at found
  simp only [List.any_eq_true, beq_iff_eq] at found
  obtain ⟨f, hf, l, hl, start⟩ := found
  obtain ⟨whole, parent, single, after, upTo⟩ := mem_partsAt hf
  obtain ⟨stack, e, before, next, behind, label, stacked, expects, tokens, -, rest⟩ :=
    agrees clean f whole parent single l hl ⟨2, 8⟩ (.inl start.symm) after upTo
  exact ⟨_, m, python, parsed, stack, e, before, next, behind, label, stacked, expects, tokens,
    rest⟩

end Completion

end Caret

import Caret.Proofs.Clean
import Caret.Proofs.Pairing
import Caret.Server.Diagnostic
/-!
# What diagnostics say about a source

Recovery sets frames aside, makes an error leaf or drops an opening token. The first two stay: what
was set aside is remembered as a broken statement, and leaves are never taken back. So a parse
without broken statements and error leaves has not recovered, but for opening tokens that were
dropped; these leave no diagnostic.

Results:
* `Faultless`: nothing was set aside; feeding a token does not restore it.
* `Faultless.of_feed`: recovery leaves a fault unless it drops an opening token.
* `Reads.faultless`: tokens that are shifted leave no fault.
* `Server.diagnose_nil`: there are no diagnostics if and only if there are no faults.
* `Server.valid_iff`: with the Python grammar there are no diagnostics and no dropped opening tokens
  if and only if the labels of the tokens are a word of the language.
* `Server.invalid_silent`: a source that is not in the language and has no diagnostics.
-/
namespace Caret

/-- No label of the grammar is that of tokens that cannot be read. -/
def Grammar.Plain (g : Grammar) : Prop := ∀ label, g.label? label ≠ some (.token .error)

/-- The leaf has no place in the tree. -/
def Leaf.IsError (l : Leaf) : Prop := ∃ kind, l.kind = .error kind

namespace Parser

variable {g : Grammar} {label target : Nat} {t : Token} {p q : Parser} {top : Frame}
  {rest : List Frame} {sub : RuleTable} {tokens : List Token}

/-! ## Broken statements -/

@[simp] theorem broken_count (kind : TokenKind) : (p.count kind).broken = p.broken := by
  rw [count_eq]

theorem shift_broken {o : Outcome} (ok : g.Consistent) (known : Known g p)
    (h : shift g t p = (o, q)) : q.broken = p.broken := by
  rcases shift_cases ok known h with ⟨-, -, rfl⟩ | ⟨label, -, runs⟩
  · rfl
  · exact runs.broken_eq

/-- Recovery that asks for another try has set a statement aside, and no other has. -/
theorem recover_broken {again : Bool} (h : recover t p = (again, q)) :
    again = true ∧ (∃ s, q.broken = p.broken ++ [s]) ∨ again = false ∧ q.broken = p.broken := by
  by_cases open_ : p.stack = []
  · rw [recover_closed open_] at h
    cases h
    exact .inr ⟨rfl, rfl⟩
  · obtain ⟨c, -, recovers⟩ := recover_cases open_ h
    cases recovers with
    | dropped => exact .inr ⟨rfl, rfl⟩
    | misplaced => exact .inr ⟨rfl, rfl⟩
    | removed => exact .inl ⟨rfl, _, rfl⟩

theorem Offers.broken {r : Except ParseError Bool × Parser} (ok : g.Consistent) (known : Known g p)
    (h : Offers g t p r) : p.broken <+: r.2.broken := by
  induction h with
  | complete => exact List.prefix_rfl
  | shifted _ h | ended _ h => exact shift_broken ok known h ▸ List.prefix_rfl
  | @again p q q' _ open_ h h' _ ih =>
    refine .trans ?_ (ih ((known.shift ok h).recover h'))
    rw [← shift_broken ok known h]
    rcases recover_broken h' with ⟨-, s, hs⟩ | ⟨impossible, -⟩
    · rw [hs]
      exact List.prefix_append _ _
    · cases impossible
  | @absorbed p q q' _ h h' =>
    rcases recover_broken h' with ⟨impossible, -⟩ | ⟨-, same⟩
    · cases impossible
    · exact same.trans (shift_broken ok known h) ▸ List.prefix_rfl

/-- Broken statements are never taken back. -/
theorem feed_broken (ok : g.Consistent) (known : Known g p) :
    p.broken <+: (feed g t p).2.broken := by
  rcases feed_cases ok known (t := t) with ⟨-, hf⟩ | ⟨-, offers⟩
  · exact congrArg (·.2.broken) hf ▸ List.prefix_rfl
  · simpa using offers.broken ok known.count

/-! ## Faults -/

/-- No statement was set aside and no token was without a place. -/
def Faultless (p : Parser) : Prop := p.broken = [] ∧ ∀ l ∈ p.leaves, ¬ l.IsError

/-- Faults stay. Recovery makes one, unless it drops an opening token. -/
theorem Faultless.of_feed (ok : g.Consistent) (lay : g.Layered) (ready : Ready g p)
    (h : Faultless (feed g t p).2) :
    Faultless p ∧ (Recovers g t p → t.kind = .indent ∧ drops g p t = true) := by
  obtain ⟨whole, placed⟩ := h
  have broken : p.broken = [] := List.prefix_nil.1 (whole ▸ feed_broken ok ready.known)
  obtain ⟨-, -, -, ls, added, -⟩ := feed_lossless (t := t) ok lay ready
  refine ⟨⟨broken, fun l hl => placed l (by rw [added]; exact List.mem_append_left _ hl)⟩, ?_⟩
  rintro ⟨offered, open_, stuck⟩
  rcases feed_cases ok ready.known (t := t) with ⟨closes, -⟩ | ⟨-, offers⟩
  · rw [offered] at closes
    cases closes
  have ready' := ready.count t.kind
  unfold drops
  generalize feed g t p = r at offers whole placed
  cases offers with
  | complete h =>
    rw [stack_count] at h
    rw [isDone_iff.2 h] at open_
    cases open_
  | shifted _ h =>
    rw [h] at stuck
    cases stuck
  | ended _ h =>
    rw [h] at stuck
    cases stuck
  | @again _ q q' _ _ h h' next =>
    -- a statement was set aside
    have more := next.broken ok ((ready'.known.shift ok h).recover h')
    rw [whole, List.prefix_nil] at more
    rcases recover_broken h' with ⟨-, s, hs⟩ | ⟨impossible, -⟩
    · rw [more] at hs
      simp at hs
    · cases impossible
  | absorbed _ h h' =>
    obtain ⟨ready₁, leaves₁, -⟩ := ready'.stuck ok lay h
    rw [leaves_count] at leaves₁
    obtain ⟨-, ⟨impossible, -⟩ | ⟨-, opens, same, -⟩ | ⟨-, -, made, -⟩⟩ := ready₁.recover lay h'
    · cases impossible
    · rw [same, leaves₁]
      exact ⟨opens, beq_self_eq_true _⟩
    · exact absurd ⟨_, rfl⟩ (placed (errorLeaf t) (by rw [made]; simp))

/-- Without faults and dropped opening tokens there was no recovery. -/
theorem clean_of_faultless (ok : g.Consistent) (lay : g.Layered) {body : List Token} {last : Token}
    (inner : ∀ t ∈ body, t.kind ≠ .endMarker) (ready : Ready g p)
    (h : Faultless (feedFrom g p (body ++ [last])))
    (kept : (TokenKind.indent, true) ∉ fates g p (body ++ [last])) :
    Faultless p ∧ Clean g p (body ++ [last]) := by
  induction body generalizing p with
  | nil =>
    obtain ⟨before, fault⟩ := h.of_feed ok lay ready
    refine ⟨before, clean_cons.2 ⟨fun recovers => kept ?_, clean_nil g _⟩⟩
    obtain ⟨opens, dropped⟩ := fault recovers
    rw [List.nil_append, fates, opens, dropped]
    exact List.mem_cons_self
  | cons t body ih =>
    rw [List.cons_append, fates, List.mem_cons, not_or] at kept
    obtain ⟨-, goesOn, -⟩ := feed_lossless (t := t) ok lay ready
    obtain ⟨after, clean⟩ := ih (fun u hu => inner u (List.mem_cons_of_mem _ hu))
      (goesOn (inner t List.mem_cons_self)).2 h kept.2
    obtain ⟨before, fault⟩ := after.of_feed ok lay ready
    refine ⟨before, clean_cons.2 ⟨fun recovers => kept.1 ?_, clean⟩⟩
    obtain ⟨opens, dropped⟩ := fault recovers
    rw [opens, dropped]

/-- The leaf of a token that has a label is no error leaf. -/
theorem leafOf_isError (plain : g.Plain) (h : classify g t = some label) :
    ¬ (leafOf g label t).IsError := by
  rintro ⟨kind, error⟩
  have unread : t.kind = .error := by
    unfold leafOf LeafKind.ofToken at error
    dsimp only at error
    split at error
    all_goals first
      | assumption
      | split at error <;> cases error
      | cases error
  have labelled := classify_token h (by rw [unread]; decide)
  rw [unread] at labelled
  exact plain label labelled

/-- Tokens that are shifted leave no fault, and none of them is dropped. -/
theorem Reads.faultless (plain : g.Plain) (reads : Reads g p tokens) (h : Faultless p) :
    Faultless (feedFrom g p tokens) ∧ ∀ fate ∈ fates g p tokens, fate.2 = false := by
  induction reads with
  | nil => exact ⟨h, by simp [fates]⟩
  | @cons p t tokens label done before class_ answer runs rest ih =>
    obtain ⟨-, added, -⟩ := runs.leaves_eq (before.whole.count t.kind)
    have leaves : (feed g t p).2.leaves = p.leaves ++ [leafOf g label t] := by
      rw [added ⟨done, rfl⟩, leaves_count]
    have made : drops g p t = false := by
      rw [drops, leaves]
      simp
    have faultless : Faultless (feed g t p).2 := by
      refine ⟨runs.broken_eq.trans ((broken_count _).trans h.1), fun l hl => ?_⟩
      rw [leaves, List.mem_append, List.mem_singleton] at hl
      rcases hl with hl | rfl
      · exact h.2 l hl
      · exact leafOf_isError plain class_
    obtain ⟨after, kept⟩ := ih faultless
    refine ⟨after, fun fate hf => ?_⟩
    rcases List.mem_cons.1 hf with rfl | hf
    · exact made
    · exact kept fate hf

@[simp] theorem broken_closeAll {n : Nat} : (closeAll n p).broken = p.broken := by
  exact closeAll_keeps (P := fun q => q.broken = p.broken) (fun _ _ _ h => h)
    (fun _ _ h => (congrArg Prod.fst aside_pop).trans h) rfl

theorem broken_finish : (p.finish g).broken = p.broken := by
  unfold finish
  dsimp only
  split <;> exact broken_closeAll

end Parser

/-! ## Diagnostics -/

namespace Server

variable {g : Grammar}

/-- There are no diagnostics if and only if there are no broken statements and no error leaves. -/
theorem diagnose_nil {m : Module} :
    diagnose m = [] ↔ m.broken = [] ∧ ∀ l ∈ m.root.leaves, ¬ l.IsError := by
  have found (l : Leaf) : ofLeaf? l = none ↔ ¬ l.IsError := by
    unfold ofLeaf? Leaf.IsError
    split
    · next kind h => simp [h]
    · next h => simpa using h
  have sorted := (Completion.perm_sortBy Diagnostic.compare
    (m.broken.map ofBroken ++ m.root.leaves.filterMap ofLeaf?)).length_eq
  rw [diagnose, ← List.length_eq_zero_iff, sorted, List.length_eq_zero_iff,
    List.append_eq_nil_iff, List.map_eq_nil_iff, List.filterMap_eq_nil_iff]
  simp only [found]

/-- A source has no diagnostics and no dropped opening tokens if and only if the labels of its
tokens are a word of the language. -/
theorem faultless_iff {follow : RuleTable → Nat → Prop} (ok : g.Consistent) (lay : g.Layered)
    (closed : g.Sealed) (plain : g.Plain) (ll : g.Predictive follow) (ends : g.EndsOnce)
    {source : Text} {m : Module} (parsed : Module.parse g source = .ok m) :
    (diagnose m = [] ∧ (TokenKind.indent, true) ∉ Module.fates g source) ↔
      ∃ w, (tokenize (Module.completed source)).map (Parser.classify g) = w.map some ∧
        g.Language w := by
  obtain ⟨body, last, tokens, marker, inner⟩ := tokenize_eq (Module.completed source)
  rw [Module.parse_eq ok lay, tokens, Except.ok.injEq] at parsed
  have steadfast : Parser.Steadfast g (.new g) := Parser.steadfast_new ok
  obtain ⟨answers, -, whole, -⟩ := Parser.feed_lossless (t := last) ok lay
    (steadfast.toReady.feedFrom ok lay inner)
  have fed : Parser.fed g (body ++ [last]) = (Parser.feed g last (Parser.fed g body)).2 :=
    Parser.feedFrom_append body [last]
  have faults : diagnose m = [] ↔ Parser.Faultless (Parser.fed g (body ++ [last])) := by
    rw [diagnose_nil, ← parsed]
    dsimp only
    rw [Parser.broken_finish, Parser.leaves_finish (fed ▸ whole)]
    rfl
  rw [faults, Module.fates, tokens]
  constructor
  · rintro ⟨faultless, kept⟩
    obtain ⟨-, clean⟩ := Parser.clean_of_faultless ok lay inner steadfast.toReady faultless kept
    exact Parser.language_of_accepts ok (clean.accepts ok lay closed inner marker steadfast)
  · rintro ⟨w, labels, derives⟩
    have clean : Parser.Clean g (.new g) (body ++ [last]) := fun before t after split =>
      (Parser.fed_language ok ll ends labels derives split).1
    have reads := clean.reads ok lay steadfast (by rwa [List.dropLast_concat])
    have fresh : Parser.Faultless (.new g) :=
      ⟨rfl, fun l hl => by rw [(Parser.ready_new ok).2] at hl; cases hl⟩
    obtain ⟨faultless, kept⟩ := reads.faultless plain fresh
    refine ⟨faultless, fun dropped => ?_⟩
    have := kept _ dropped
    cases this

theorem python_plain : Grammar.pythonTables.Plain := by
  have labels : ∀ x ∈ Grammar.pythonTables.labels.toList, x ≠ .token .error := by decide +kernel
  intro label h
  exact labels _ (Array.mem_toList_iff.2 (Array.mem_of_getElem? h)) rfl

/-- A source that is parsed with the Python grammar has no diagnostics and no dropped opening tokens
if and only if the labels of its tokens are a word of the language. -/
theorem valid_iff (source : Text) : ∃ g m, Grammar.python = .ok g ∧ Module.parse g source = .ok m ∧
    ((diagnose m = [] ∧ (TokenKind.indent, true) ∉ Module.fates g source) ↔
      ∃ w, (tokenize (Module.completed source)).map (Parser.classify g) = w.map some ∧
        g.Language w) := by
  obtain ⟨m, parsed, -⟩ :=
    Module.parse_of_layered Grammar.python_consistent Grammar.python_layered source
  exact ⟨_, m, Grammar.python_eq, parsed, faultless_iff Grammar.python_consistent
    Grammar.python_layered Grammar.python_sealed python_plain Grammar.python_predictive
    Grammar.python_endsOnce parsed⟩

/-- An indented first line is no word of the language, but recovery drops its opening token, and
there are no diagnostics. -/
theorem invalid_silent : ∃ g m, Grammar.python = .ok g ∧
    Module.parse g "  x\n".toList = .ok m ∧ diagnose m = [] ∧
    ¬ ∃ w, (tokenize (Module.completed "  x\n".toList)).map (Parser.classify g) = w.map some ∧
      g.Language w := by
  obtain ⟨m, parsed, -⟩ := Module.parse_of_layered Grammar.python_consistent
    Grammar.python_layered "  x\n".toList
  have silent : (Module.parse Grammar.pythonTables "  x\n".toList).toOption.all
      (diagnose · == []) = true := by
    decide +kernel
  have dropped : (TokenKind.indent, true) ∈ Module.fates Grammar.pythonTables "  x\n".toList := by
    decide +kernel
  rw [parsed] at silent
  refine ⟨_, m, Grammar.python_eq, parsed, by simpa [Except.toOption] using silent, fun valid => ?_⟩
  exact ((faultless_iff Grammar.python_consistent Grammar.python_layered Grammar.python_sealed
    python_plain Grammar.python_predictive Grammar.python_endsOnce parsed).2 valid).2 dropped

end Server

end Caret

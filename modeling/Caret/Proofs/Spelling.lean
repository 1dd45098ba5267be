import Caret.Proofs.Ordering
import Caret.Proofs.Tracing
import Caret.Proofs.Truncation
/-!
# How the leaves of a source are spelled

An operator is spelled in one way, and so is a reserved word. A name takes in all characters that
can continue it, so no name stands right behind another.

Results:
* `tokenize_operator`: the value of an operator is its spelling.
* `tokenize_name`: a name starts as names do, and ends where no more characters continue it.
* `names_apart`: of two names one ends before the other starts.
* `Labels.token`, `Labels.keyword`: what a leaf is, by the label that it was read with.
* `Regular.name`: every name in a regular tree is that of a name token.
-/
namespace Caret

namespace Scanner

variable {c : Char} {rest : Text}

/-- A lexeme that is an operator has its spelling. -/
theorem lexeme_operator {o : Operator} (h : (lexeme c rest).kind = .op o) :
    (c :: rest).take (lexeme c rest).length = o.spelling.toList := by
  have other (marks : Nat) (quote : Char) (text : Text) :
      (literal marks quote text).kind ≠ .op o := by
    rcases literal_kind marks quote text with kind | kind <;> simp [kind]
  rcases lexeme_cases c rest with ⟨-, kind⟩ | kind | ⟨_, _, _, read⟩ | ⟨-, read⟩ | read
  · rw [kind] at h
    cases h
  · rw [kind] at h
    cases h
  · exact absurd (read ▸ h) (other _ _ _)
  · rcases wordLexeme_cases (c :: rest) with word | ⟨_, _, _, word⟩
    · rw [read, word] at h
      cases h
    · exact absurd (word ▸ read ▸ h) (other _ _ _)
  · rw [read] at h ⊢
    unfold operatorLexeme at h ⊢
    cases found : Operator.atFront? (c :: rest) with
    | none => rw [found] at h; cases h
    | some o' =>
      rw [found] at h
      cases h
      obtain ⟨front, -⟩ := Operator.atFront?_longest found
      show (c :: rest).take o.spelling.length = o.spelling.toList
      rw [← String.length_toList]
      exact (List.prefix_iff_eq_take.1 front).symm

/-- A lexeme that is a name takes all characters that can continue it. -/
theorem lexeme_name (h : (lexeme c rest).kind = .name) :
    isNameStart c = true ∧
      (lexeme c rest).length = ((c :: rest).takeWhile isNameContinue).length := by
  have other (marks : Nat) (quote : Char) (text : Text) :
      (literal marks quote text).kind ≠ .name := by
    rcases literal_kind marks quote text with kind | kind <;> simp [kind]
  rcases lexeme_cases c rest with ⟨-, kind⟩ | kind | ⟨_, _, _, read⟩ | ⟨start, read⟩ | read
  · rw [kind] at h
    cases h
  · rw [kind] at h
    cases h
  · exact absurd (read ▸ h) (other _ _ _)
  · rcases wordLexeme_cases (c :: rest) with word | ⟨_, _, _, word⟩
    · exact ⟨start, by rw [read, word]⟩
    · exact absurd (word ▸ read ▸ h) (other _ _ _)
  · rw [read] at h
    unfold operatorLexeme at h
    split at h <;> cases h

theorem isNameContinue_of_isNameStart (h : isNameStart c = true) : isNameContinue c = true := by
  simp only [isNameStart, isNameContinue, Bool.or_eq_true] at h ⊢
  exact h.imp_left Text.isAlphanumeric_of_isAlphabetic

end Scanner

/-! ## Tokens -/

variable {depth : Nat} {lineStart : Bool} {text source : Text} {t u : Token}
  {ts us ms : List Token}

theorem Scanned.operator (h : Scanned depth lineStart text ts) (ht : t ∈ ts) {o : Operator}
    (kind : t.kind = .op o) : t.value = o.spelling.toList := by
  induction h with
  | block layout more ih =>
    rcases List.mem_cons.1 ht with rfl | ht
    · rcases layout.kind with block | block <;> (rw [block] at kind; cases kind)
    · exact ih ht
  | lexeme _ _ _ read value _ ih =>
    rcases List.mem_cons.1 ht with rfl | ht
    · rw [value]
      exact Scanner.lexeme_operator (read ▸ kind)
    · exact ih ht
  | last marker =>
    rw [List.mem_singleton.1 ht, marker] at kind
    cases kind
  | out => cases ht

/-- The value of an operator is its spelling. -/
theorem tokenize_operator (ht : t ∈ tokenize source) {o : Operator} (kind : t.kind = .op o) :
    t.value = o.spelling.toList :=
  (tokenize_scanned source).operator ht kind

/-- A name starts as names do, and the character behind it is none that could continue it. -/
theorem tokenize_name (h : tokenize source = us ++ t :: ts) (name : t.kind = .name) :
    (∃ c tail, t.value = c :: tail ∧ isNameStart c = true) ∧
      ∀ c ∈ (Token.concat ts).head?, isNameContinue c = false := by
  have scanned := tokenize_scanned source
  have whole := concat_tokenize source
  rw [h] at scanned whole
  obtain ⟨lineStart, text, split, behind⟩ := scanned.drop
  rw [Token.concat_append, split, Token.concat_cons] at whole
  have rest := List.append_cancel_left whole
  cases behind with
  | block layout => rcases layout.kind with block | block <;> (rw [block] at name; cases name)
  | last marker => rw [marker] at name; cases name
  | @lexeme _ _ skipped line passed tail c _ _ _ gap trivia kind value =>
    obtain ⟨start, length⟩ := Scanner.lexeme_name (kind ▸ name)
    have continues := Scanner.isNameContinue_of_isNameStart start
    have line_eq := Scanner.gap_append (0 < depthBehind 0 us) false line
    rw [gap] at line_eq
    have taken : t.value = (c :: tail).takeWhile isNameContinue := by
      rw [value, length]
      exact (List.prefix_iff_eq_take.1 (List.takeWhile_prefix _)).symm
    refine ⟨⟨c, tail.takeWhile isNameContinue, ?_, start⟩, ?_⟩
    · rw [taken, List.takeWhile_cons, if_pos continues]
    · have behind : Token.concat ts = (c :: tail).dropWhile isNameContinue := by
        rw [trivia, ← line_eq] at rest
        simp only [List.append_assoc] at rest
        have rest := List.append_cancel_left (List.append_cancel_left rest)
        have parts : (c :: tail).takeWhile isNameContinue ++ (c :: tail).dropWhile isNameContinue =
          c :: tail := List.takeWhile_append_dropWhile
        rw [taken] at rest
        exact List.append_cancel_left (rest.trans parts.symm)
      rw [behind]
      intro d hd
      have := List.head?_dropWhile_not isNameContinue (c :: tail)
      rw [hd] at this
      exact this

/-- Of two names in a source the first ends before the other starts: what stands right behind the
first does not start as names do. -/
theorem names_apart (h : tokenize source = us ++ t :: (ms ++ u :: ts)) (first : t.kind = .name)
    (second : u.kind = .name) : t.stop < u.start := by
  have placed := tokenize_placed source
  obtain ⟨-, ends⟩ := tokenize_name h first
  rw [h] at placed
  have not_layout {t : Token} (name : t.kind = .name) : ¬ t.IsLayout := fun layout => by
    rcases layout.kind with block | block <;> (rw [block] at name; cases name)
  have start := placed.start_eq (not_layout first)
  have split : us ++ t :: (ms ++ u :: ts) = (us ++ t :: ms) ++ u :: ts := by simp
  rw [split] at placed
  have later := placed.start_eq (not_layout second)
  have between : u.start = t.stop.advancedBy (Token.concat ms ++ u.trivia) := by
    rw [later, Token.stop, start]
    simp [Token.concat_append, Token.concat_cons]
  rw [between]
  refine Position.lt_advancedBy _ fun none => ?_
  rw [List.append_eq_nil_iff] at none
  rw [split] at h
  obtain ⟨⟨c, tail, value, starts⟩, -⟩ := tokenize_name h second
  have continues := ends c (by
    rw [Token.concat_append, none.1, Token.concat_cons, none.2, value]
    rfl)
  rw [Scanner.isNameContinue_of_isNameStart starts] at continues
  cases continues

/-! ## Leaves -/

/-- The leaf is that of a name among the tokens. -/
def Leaf.IsNameIn (T : List Token) (l : Leaf) : Prop :=
  ∃ t ∈ T, t.kind = .name ∧ l.value = t.value ∧ l.start = t.start

theorem Leaf.IsNameIn.start_lt_stop {l : Leaf} (h : l.IsNameIn (tokenize source)) :
    l.start < l.stop := by
  obtain ⟨t, ht, name, value, -⟩ := h
  obtain ⟨us, ts, split⟩ := List.append_of_mem ht
  obtain ⟨⟨c, tail, nonempty, -⟩, -⟩ := tokenize_name split name
  exact Position.lt_advancedBy _ (by rw [value, nonempty]; exact List.cons_ne_nil _ _)

/-- The leaves of two names do not touch. -/
theorem Leaf.IsNameIn.apart {l m : Leaf} (hl : l.IsNameIn (tokenize source))
    (hm : m.IsNameIn (tokenize source)) (before : l.Before m) : l.stop < m.start := by
  have wide := hl.start_lt_stop
  have wide' := hm.start_lt_stop
  obtain ⟨t, ht, name, value, start⟩ := hl
  obtain ⟨u, hu, name', value', start'⟩ := hm
  have stop : l.stop = t.stop := by rw [Leaf.stop, Token.stop, value, start]
  have stop' : m.stop = u.stop := by rw [Leaf.stop, Token.stop, value', start']
  obtain ⟨us, ts, split⟩ := List.append_of_mem ht
  have ordered := (tokenize_placed source).ordered
  rw [split] at hu ordered
  rw [Leaf.Before] at before
  rw [start'] at before wide' ⊢
  rw [stop] at before wide ⊢
  rw [stop'] at wide'
  rw [start] at wide
  rcases List.mem_append.1 hu with hu | hu
  · -- the tokens stand the other way round than the leaves
    have back := (List.pairwise_append.1 ordered).2.2 u hu t List.mem_cons_self
    simp only [Position.lt_def, Position.le_def] at *
    omega
  rcases List.mem_cons.1 hu with rfl | hu
  · simp only [Position.lt_def, Position.le_def] at *
    omega
  · obtain ⟨ms, ts', rfl⟩ := List.append_of_mem hu
    exact names_apart split name name'

namespace Parser

variable {g : Grammar} {T : List Token} {label : Nat} {l : Leaf}

/-- A leaf that was read with the label of a token type. -/
theorem Labels.token {kind : TokenKind} (h : Labels g T label l)
    (hl : g.label? label = some (.token kind)) :
    l.kind = .ofToken false kind ∧ ∃ t ∈ T, t.kind = kind ∧ l.value = t.value ∧
      l.start = t.start := by
  obtain ⟨t, ht, class_, rfl⟩ := h
  have own : t.kind = kind := by
    rcases classify_label class_ with ⟨k, keyword⟩ | token
    · rw [hl] at keyword
      cases keyword
    · rw [hl] at token
      cases token
      rfl
  exact ⟨by rw [leafOf, hl, own], t, ht, own, rfl, rfl⟩

/-- A leaf that was read with the label of a reserved word. -/
theorem Labels.keyword {k : Keyword} (h : Labels g T label l)
    (hl : g.label? label = some (.keyword k)) :
    l.kind = .keyword ∧ l.value = k.spelling.toList := by
  obtain ⟨t, -, class_, rfl⟩ := h
  rcases Option.or_eq_some_iff.1 class_ with word | ⟨-, token⟩
  · split at word
    · next name =>
      obtain ⟨k', spelled, numbered⟩ := Option.bind_eq_some_iff.1 word
      have same := Grammar.label?_of_idxOf? numbered
      rw [hl] at same
      cases same
      refine ⟨by rw [leafOf, hl, name]; rfl, ?_⟩
      have found := List.find?_some spelled
      rw [beq_iff_eq] at found
      rw [found, String.toList_ofList]
      rfl
    · cases word
  · have other := Grammar.label?_of_idxOf? token
    rw [hl] at other
    cases other

/-- A leaf that was read with the label of an operator. -/
theorem Labels.operator {o : Operator} (h : Labels g (tokenize source) label l)
    (hl : g.label? label = some (.token (.op o))) :
    l.kind = .operator o ∧ l.value = o.spelling.toList := by
  obtain ⟨kind, t, ht, token, value, -⟩ := h.token hl
  exact ⟨kind, by rw [value, tokenize_operator ht token]⟩

end Parser

/-- A name in a regular tree is that of a token. -/
theorem Tree.Regular.name {g : Grammar} {T : List Token} {rules : List String} {t : Tree}
    {l : Leaf} (h : t.Regular g T rules) (hl : l ∈ t.leaves) (name : l.kind = .name) :
    l.IsNameIn T := by
  induction h with
  | leaf read =>
    rw [Tree.leaves_leaf, List.mem_singleton] at hl
    subst hl
    obtain ⟨u, hu, -, rfl⟩ := read
    refine ⟨u, hu, ?_, rfl, rfl⟩
    rw [Parser.leafOf] at name
    cases kind : u.kind <;> simp_all [LeafKind.ofToken]
  | error =>
    rw [Tree.leaves_leaf, List.mem_singleton] at hl
    subst hl
    cases name
  | branch _ _ ih =>
    rw [Tree.leaves_branch] at hl
    obtain ⟨c, hc, hl⟩ := List.mem_flatMap.1 hl
    exact ih c hc hl

end Caret

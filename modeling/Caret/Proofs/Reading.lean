import Caret.Proofs.Faithful
import Caret.Proofs.FirstSets
import Caret.Proofs.PythonTables
/-!
# What a description says

A rule of a description is a name, a colon and a right-hand side in the notation. The reader takes
the notation as it is meant: what it returns is the right-hand side that its pieces are written for.
With that the compiled states can be compared with the text of the rule. They accept every word that
the text stands for, and if the right-hand side is faithful, no other word. `[NAME* NUMBER]` is not
faithful, and its states accept a lone `NAME`.

Results:
* `readRhs_written`: the pieces read are written for the right-hand side returned.
* `rules_read`: every rule of a description is written as the grammar of the notation has it.
* `rules_compiled`: what the compiled states of the rules of a description accept.
* `halfway_accepted`: a word that its rule does not stand for is accepted.
* `python_rules_compiled`: the rules of the Python grammar are compiled to what they stand for.
-/
namespace Caret.Description

/-- The levels of the notation. -/
inductive Level
  | rhs
  | alt
  | item
  | atom
  deriving DecidableEq, Repr

/-- The pieces are written for the right-hand side. -/
inductive Written : Level → List Piece → Rhs → Prop
  | word (text : Text) : Written .atom [.word text] (.label text)
  | literal (text : Text) : Written .atom [.literal text] (.label text)
  | group {ps : List Piece} {r : Rhs} (h : Written .rhs ps r) :
      Written .atom (.sign '(' :: (ps ++ [.sign ')'])) r
  | optional {ps : List Piece} {r : Rhs} (h : Written .rhs ps r) :
      Written .item (.sign '[' :: (ps ++ [.sign ']'])) (.optional r)
  | once {ps : List Piece} {r : Rhs} (h : Written .atom ps r) : Written .item ps r
  | plus {ps : List Piece} {r : Rhs} (h : Written .atom ps r) :
      Written .item (ps ++ [.sign '+']) (.plus r)
  | star {ps : List Piece} {r : Rhs} (h : Written .atom ps r) :
      Written .item (ps ++ [.sign '*']) (.star r)
  | last {ps : List Piece} {r : Rhs} (h : Written .item ps r) : Written .alt ps r
  | items {ps qs : List Piece} {r s : Rhs} (h : Written .item ps r) (h' : Written .alt qs s) :
      Written .alt (ps ++ qs) (.seq r s)
  | only {ps : List Piece} {r : Rhs} (h : Written .alt ps r) : Written .rhs ps r
  | choice {ps qs : List Piece} {r s : Rhs} (h : Written .alt ps r) (h' : Written .rhs qs s) :
      Written .rhs (ps ++ .sign '|' :: qs) (.alt r s)

/-- A reader of this level: what it takes from the front is written for what it returns. -/
def Reads (level : Level) (read : List Piece → Except NotationFault (Rhs × List Piece)) : Prop :=
  ∀ {ps r rest}, read ps = .ok (r, rest) → ∃ qs, ps = qs ++ rest ∧ Written level qs r

variable {n : Nat} {c : Char} {ps qs rest : List Piece} {r : Rhs}

theorem expectSign_ok (h : expectSign c ps = .ok rest) : ps = .sign c :: rest := by
  unfold expectSign at h
  split at h
  · split at h
    · next hd => cases h; rw [hd]
    · cases h
  · cases h

theorem suffixed_written {s : Rhs} (hr : Written .atom qs r) (h : suffixed r ps = (s, rest)) :
    ∃ more, ps = more ++ rest ∧ Written .item (qs ++ more) s := by
  unfold suffixed at h
  split at h
  · cases h; exact ⟨[.sign '+'], rfl, .plus hr⟩
  · cases h; exact ⟨[.sign '*'], rfl, .star hr⟩
  · cases h; exact ⟨[], rfl, by rw [List.append_nil]; exact .once hr⟩

theorem reads_rhs (alt : Reads .alt (readAlt n)) (rhs : Reads .rhs (readRhs n)) :
    Reads .rhs (readRhs (n + 1)) := by
  intro ps r rest ok
  rw [readRhs] at ok
  obtain ⟨⟨first, ps₁⟩, hf, h⟩ := Except.bind_ok.1 ok
  obtain ⟨qs, rfl, hqs⟩ := alt hf
  dsimp only at h
  split at h
  · next ps₂ =>
    obtain ⟨⟨second, ps₃⟩, hs, h'⟩ := Except.bind_ok.1 h
    obtain ⟨qs', rfl, hqs'⟩ := rhs hs
    cases h'
    exact ⟨qs ++ .sign '|' :: qs', by simp, .choice hqs hqs'⟩
  · cases h
    exact ⟨qs, rfl, .only hqs⟩

theorem reads_alt (item : Reads .item (readItem n)) (alt : Reads .alt (readAlt n)) :
    Reads .alt (readAlt (n + 1)) := by
  intro ps r rest ok
  rw [readAlt] at ok
  obtain ⟨⟨first, ps₁⟩, hf, h⟩ := Except.bind_ok.1 ok
  obtain ⟨qs, rfl, hqs⟩ := item hf
  dsimp only at h
  split at h
  · obtain ⟨⟨second, ps₃⟩, hs, h'⟩ := Except.bind_ok.1 h
    obtain ⟨qs', rfl, hqs'⟩ := alt hs
    cases h'
    exact ⟨qs ++ qs', by simp, .items hqs hqs'⟩
  · cases h
    exact ⟨qs, rfl, .last hqs⟩

/-- A right-hand side between two signs. -/
theorem enclosed {c d : Char} (build : Rhs → Rhs) (rhs : Reads .rhs (readRhs n))
    (h : (do
      let (body, ps) ← readRhs n ps
      let ps ← expectSign d ps
      pure (build body, ps)) = Except.ok (r, rest)) :
    ∃ qs body, .sign c :: ps = .sign c :: (qs ++ [.sign d]) ++ rest ∧ Written .rhs qs body ∧
      r = build body := by
  obtain ⟨⟨body, ps₁⟩, hb, h₁⟩ := Except.bind_ok.1 h
  obtain ⟨ps₂, he, h₂⟩ := Except.bind_ok.1 h₁
  obtain rfl := expectSign_ok he
  obtain ⟨qs, rfl, hqs⟩ := rhs hb
  cases h₂
  exact ⟨qs, body, by simp, hqs, rfl⟩

theorem reads_item (rhs : Reads .rhs (readRhs n)) (atom : Reads .atom (readAtom n)) :
    Reads .item (readItem (n + 1)) := by
  intro ps r rest ok
  unfold readItem at ok
  split at ok
  · cases ok
  · next n _ ps hn =>
    cases hn
    obtain ⟨qs, body, hps, hqs, rfl⟩ := enclosed .optional rhs ok
    exact ⟨_, hps, .optional hqs⟩
  · next n hn _ =>
    cases hn
    obtain ⟨⟨body, ps₁⟩, ha, h⟩ := Except.bind_ok.1 ok
    obtain ⟨qs, rfl, hqs⟩ := atom ha
    obtain ⟨more, rfl, written⟩ := suffixed_written hqs (Except.ok.inj h)
    exact ⟨qs ++ more, (List.append_assoc ..).symm, written⟩

theorem reads_atom (rhs : Reads .rhs (readRhs n)) : Reads .atom (readAtom (n + 1)) := by
  intro ps r rest ok
  unfold readAtom at ok
  split at ok
  · cases ok
  · next n _ ps hn =>
    cases hn
    obtain ⟨qs, body, hps, hqs, rfl⟩ := enclosed id rhs ok
    exact ⟨_, hps, .group hqs⟩
  · next text _ _ => cases ok; exact ⟨[.word text], rfl, .word text⟩
  · next text _ _ => cases ok; exact ⟨[.literal text], rfl, .literal text⟩
  · cases ok

/-- At each level the reader takes the notation as it is meant. -/
theorem reads (n : Nat) : Reads .rhs (readRhs n) ∧ Reads .alt (readAlt n) ∧
    Reads .item (readItem n) ∧ Reads .atom (readAtom n) := by
  induction n with
  | zero =>
    refine ⟨fun h => ?_, fun h => ?_, fun h => ?_, fun h => ?_⟩
    · rw [readRhs] at h; cases h
    · rw [readAlt] at h; cases h
    · rw [readItem] at h; cases h
    · rw [readAtom] at h; cases h
  | succ n ih =>
    obtain ⟨rhs, alt, item, atom⟩ := ih
    exact ⟨reads_rhs alt rhs, reads_alt item alt, reads_item rhs atom, reads_atom rhs⟩

/-- The pieces read are written for the right-hand side returned. -/
theorem readRhs_written (h : readRhs n ps = .ok (r, rest)) :
    ∃ qs, ps = qs ++ rest ∧ Written .rhs qs r := (reads n).1 h

/-- The pieces are a name, a colon and a right-hand side, and this is the rule. -/
def WrittenRule (ps : List Piece) (rule : Rule) : Prop :=
  ∃ qs, ps = .word rule.name :: .sign ':' :: qs ∧ Written .rhs qs rule.rhs

theorem readRule_written {rule : Rule} (h : readRule ps = .ok rule) : WrittenRule ps rule := by
  unfold readRule at h
  split at h
  · next name ps =>
    obtain ⟨ps₁, he, h₁⟩ := Except.bind_ok.1 h
    obtain ⟨⟨rhs, ps₂⟩, hr, h₂⟩ := Except.bind_ok.1 h₁
    obtain ⟨qs, rfl, written⟩ := readRhs_written hr
    obtain rfl := expectSign_ok he
    dsimp only at h₂
    split at h₂
    · cases h₂
      exact ⟨qs, by rw [List.append_nil], written⟩
    · cases h₂
  · cases h

theorem readRules_written {rules rules' : List Rule} {texts : List RuleText}
    (h : readRules rules texts = .ok rules') :
    ∃ more, rules' = rules ++ more ∧
      List.Forall₂ (fun text rule => WrittenRule text.pieces rule) texts more := by
  induction texts generalizing rules with
  | nil => cases h; exact ⟨[], (List.append_nil _).symm, .nil⟩
  | cons text texts ih =>
    rw [readRules] at h
    split at h
    · cases h
    next rule hrule =>
    split at h
    · cases h
    obtain ⟨more, rfl, written⟩ := ih h
    exact ⟨rule :: more, List.append_assoc .., .cons (readRule_written hrule) written⟩

/-- Every rule of a description is written as the grammar of the notation has it. -/
theorem rules_read {lines : List Text} {rs : List Rule} (h : rules lines = .ok rs) :
    ∃ texts, gather 1 [] lines = .ok texts ∧
      List.Forall₂ (fun text rule => WrittenRule text.pieces rule) texts rs := by
  obtain ⟨texts, hg, h⟩ := Except.bind_ok.1 h
  obtain ⟨more, rfl, written⟩ := readRules_written h
  exact ⟨texts, hg, written⟩

/-- What stands between name and end of a rule text is a right-hand side. The compiled states accept
every word that it stands for; if it is faithful, they accept no other word. -/
theorem rules_compiled {lines : List Text} {rs : List Rule} (h : rules lines = .ok rs) :
    ∃ texts, gather 1 [] lines = .ok texts ∧ List.Forall₂ (fun text rule =>
      WrittenRule text.pieces rule ∧
      (∀ w, rule.rhs.Denotes w → Dfa.Accepts (CompiledRule.ofRule rule).states w) ∧
      (rule.rhs.faithful → ∀ w, Dfa.Accepts (CompiledRule.ofRule rule).states w →
        rule.rhs.Denotes w)) texts rs := by
  obtain ⟨texts, hg, written⟩ := rules_read h
  refine ⟨texts, hg, written.imp fun text rule hrule => ⟨hrule, fun w hw => ?_, fun ok w hw => ?_⟩⟩
  · exact CompiledRule.accepts_of_denotes hw
  · exact (CompiledRule.accepts_iff_denotes ok).1 hw

/-- The rule with a star takes its alternatives in any number before the label behind it, and the
rule with a plus needs one label at least. -/
theorem rules_compiled_of_stars : ∃ a b,
    rules ["a: (NAME | b)* NEWLINE".toList, "b: NUMBER+".toList] = .ok [a, b] ∧
    Dfa.Accepts (CompiledRule.ofRule a).states
      ["b".toList, "NAME".toList, "NEWLINE".toList] ∧
    Dfa.Accepts (CompiledRule.ofRule b).states ["NUMBER".toList, "NUMBER".toList] ∧
    ¬ Dfa.Accepts (CompiledRule.ofRule b).states [] := by
  have read : rules ["a: (NAME | b)* NEWLINE".toList, "b: NUMBER+".toList] = .ok
      [⟨"a".toList, .seq (.star (.alt (.label "NAME".toList) (.label "b".toList)))
        (.label "NEWLINE".toList)⟩, ⟨"b".toList, .plus (.label "NUMBER".toList)⟩] := by
    decide +kernel
  obtain ⟨texts, -, compiled⟩ := rules_compiled read
  obtain ⟨-, rest, ⟨-, star, -⟩, others, -⟩ := List.forall₂_cons_right_iff.1 compiled
  obtain ⟨-, -, ⟨-, plus, faithful⟩, -, -⟩ := List.forall₂_cons_right_iff.1 others
  refine ⟨_, _, read, star _ ?_, plus _ ?_, fun empty => ?_⟩
  · exact .seq (.more (.right (.label _)) (.more (.left (.label _)) (.none _))) (.label _)
  · exact .again (.label _) (.once (.label _))
  · -- without a label there is no round of the plus
    generalize none : ([] : List Text) = w at empty
    cases faithful (by decide) w empty with
    | once h => cases h; cases none
    | again h => cases h; cases none

/-- The compiled states of `a: [NAME* NUMBER]` accept a `NAME` alone: the option is left halfway. -/
theorem halfway_accepted : ∃ rule, rules ["a: [NAME* NUMBER]".toList] = .ok [rule] ∧
    Dfa.Accepts (CompiledRule.ofRule rule).states ["NAME".toList] ∧
    ¬ rule.rhs.Denotes ["NAME".toList] := by
  refine ⟨⟨"a".toList, .optional (.seq (.star (.label "NAME".toList))
    (.label "NUMBER".toList))⟩, by decide +kernel, ?_, ?_⟩
  · rw [CompiledRule.accepts_iff_leads]
    -- one round of the star, from its entry back to its entry, and over the brackets
    have round : (Rhs.star (.label "NAME".toList)).Leads .entry ["NAME".toList] .entry :=
      (Rhs.Denotes.label "NAME".toList).starOnce.leads
    exact Glued.inside (q := .entry) (v := ["NAME".toList]) (w := []) round (.jump (.stay .exit))
  · intro h
    cases h with
    | present h =>
      generalize hw : ["NAME".toList] = w at h
      cases h with
      | seq _ number =>
        cases number
        have last := congrArg List.getLast? hw
        rw [List.getLast?_concat] at last
        revert last
        decide

set_option maxRecDepth 100000 in
/-- Nothing is left halfway in the rules of the Python grammar: their compiled states accept the
words that they stand for, and no others. -/
theorem python_rules_compiled : ∃ rs, rules (Grammar.pythonLines.map String.toList) = .ok rs ∧
    ∀ rule ∈ rs, ∀ w, Dfa.Accepts (CompiledRule.ofRule rule).states w ↔ rule.rhs.Denotes w := by
  have spelled : ∃ texts, Grammar.pythonLines.map String.toList = texts ∧
      ((rules texts).toOption.any fun rs => rs.all (·.rhs.faithful)) = true := by
    apply Exists.intro
    apply And.intro
    · unfold Grammar.pythonLines
      repeat apply Grammar.map_toList_cons
      exact List.map_nil
    · decide +kernel
  obtain ⟨texts, lines, faithful⟩ := spelled
  rw [lines]
  cases read : rules texts with
  | error e => rw [read] at faithful; cases faithful
  | ok rs =>
    rw [read] at faithful
    exact ⟨rs, rfl, fun rule hrule w =>
      CompiledRule.accepts_iff_denotes (List.all_eq_true.1 faithful rule hrule)⟩

end Caret.Description

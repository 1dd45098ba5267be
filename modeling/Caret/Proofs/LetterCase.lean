import Caret.Proofs.Candidates
/-!
# Completion where letter case does not matter

What has been typed and a candidate are put in lower case each for itself. The lower case of a
character does not depend on what stands around it, but for a capital sigma: at the end of a word it
becomes the final form. So lower case keeps a beginning as it is, unless it ends in a capital sigma
that is no longer final where the text goes on with a letter. A candidate that begins with what has
been typed is lost in this case, and in no other.

Results:
* `Text.lowercase_prefix_iff`: when the lower case of a text is a beginning of that of a longer one.
* `Completion.lost_iff`: which candidates are lost where letter case does not matter.
* `Completion.sigma_lost`: such a candidate.
-/
namespace Caret

namespace Text

variable {before front rest more : List Char} {c : Char}

/-- The text ends in a capital sigma, which is at the end of a word if no letter follows: a cased
character comes before it, and what stands behind it does not count. -/
def endsInSigma (text : List Char) : Bool :=
  match text.reverse.dropWhile isCaseIgnorable with
  | 'Σ' :: before => meetsCased before
  | _ => false

/-- Lower case of a text that other characters follow, and whether these come to a cased one before
any that counts; `before` holds the characters already passed, nearest first. -/
def lowercaseUpTo (cased : Bool) : List Char → List Char → List Char
  | _, [] => []
  | before, c :: rest =>
    let follows := meetsCased rest || rest.all isCaseIgnorable && cased
    let lower :=
      if c = 'Σ' then [if meetsCased before && !follows then 'ς' else 'σ'] else lowerChar c
    lower ++ lowercaseUpTo cased (c :: before) rest

theorem meetsCased_append (front more : List Char) : meetsCased (front ++ more) =
    (meetsCased front || front.all isCaseIgnorable && meetsCased more) := by
  induction front with
  | nil => simp [meetsCased]
  | cons c front ih =>
    by_cases skipped : isCaseIgnorable c = true
    · simp only [meetsCased, List.cons_append, List.dropWhile_cons, skipped, if_true,
        List.all_cons, Bool.true_and] at ih ⊢
      exact ih
    · simp [meetsCased, skipped]

/-- Of what follows a text it only matters whether it comes to a cased character. -/
theorem lowercaseAfter_append (before front more : List Char) :
    lowercaseAfter before (front ++ more) = lowercaseUpTo (meetsCased more) before front ++
      lowercaseAfter (front.reverse ++ before) more := by
  induction front generalizing before with
  | nil => rfl
  | cons c front ih =>
    rw [List.cons_append, lowercaseAfter, ih, lowercaseUpTo, meetsCased_append,
      List.reverse_cons, List.append_assoc, List.append_assoc]
    rfl

theorem lowercaseAfter_eq (before front : List Char) :
    lowercaseAfter before front = lowercaseUpTo false before front := by
  have alone := lowercaseAfter_append before front []
  rw [List.append_nil, lowercaseAfter, List.append_nil] at alone
  exact alone

theorem lowercaseUpTo_length (cased cased' : Bool) (before front : List Char) :
    (lowercaseUpTo cased before front).length = (lowercaseUpTo cased' before front).length := by
  induction front generalizing before with
  | nil => rfl
  | cons c front ih =>
    simp only [lowercaseUpTo, List.length_append, ih (c :: before)]
    split <;> rfl

/-- What follows makes a difference to a sigma at the end of the text only. -/
theorem lowercaseUpTo_ne_iff (before front : List Char) :
    lowercaseUpTo true before front ≠ lowercaseUpTo false before front ↔
      ∃ inner behind, front = inner ++ 'Σ' :: behind ∧
        meetsCased (inner.reverse ++ before) = true ∧ behind.all isCaseIgnorable = true := by
  have sigma : isCaseIgnorable 'Σ' = false := by decide
  induction front generalizing before with
  | nil => simp [lowercaseUpTo]
  | cons c front ih =>
    have later := ih (c :: before)
    by_cases here : c = 'Σ' ∧ meetsCased before = true ∧ front.all isCaseIgnorable = true
    · obtain ⟨rfl, cased, skipped⟩ := here
      have none : meetsCased front = false := by
        have all := List.dropWhile_eq_nil_iff.2 (List.all_eq_true.1 skipped)
        rw [meetsCased, all]
      refine iff_of_true ?_ ⟨[], front, rfl, by simpa using cased, skipped⟩
      simp [lowercaseUpTo, none, cased, skipped]
    · have same :
          (lowercaseUpTo true before (c :: front) ≠ lowercaseUpTo false before (c :: front)) ↔
          lowercaseUpTo true (c :: before) front ≠ lowercaseUpTo false (c :: before) front := by
        rw [lowercaseUpTo, lowercaseUpTo]
        by_cases capital : c = 'Σ'
        · subst capital
          simp only [true_and, not_and, Bool.not_eq_true] at here
          cases cased : meetsCased before with
          | false => simp
          | true => simp [here cased]
        · simp [capital]
      refine same.trans (later.trans ⟨?_, ?_⟩)
      · rintro ⟨inner, behind, rfl, cased, skipped⟩
        exact ⟨c :: inner, behind, rfl, by simpa using cased, skipped⟩
      · rintro ⟨inner, behind, split, cased, skipped⟩
        cases inner with
        | nil =>
          obtain ⟨rfl, rfl⟩ := List.cons.inj split
          exact absurd ⟨rfl, by simpa using cased, skipped⟩ here
        | cons d inner =>
          obtain ⟨rfl, rfl⟩ := List.cons.inj split
          exact ⟨inner, behind, rfl, by simpa using cased, skipped⟩

theorem endsInSigma_iff {text : List Char} : endsInSigma text = true ↔
    ∃ inner behind, text = inner ++ 'Σ' :: behind ∧ meetsCased inner.reverse = true ∧
      behind.all isCaseIgnorable = true := by
  have sigma : isCaseIgnorable 'Σ' = false := by decide
  constructor
  · intro ends
    have split : text.reverse.takeWhile isCaseIgnorable ++ text.reverse.dropWhile isCaseIgnorable =
      text.reverse := List.takeWhile_append_dropWhile
    unfold endsInSigma at ends
    split at ends
    · next before found =>
      refine ⟨before.reverse, (text.reverse.takeWhile isCaseIgnorable).reverse, ?_, ?_, ?_⟩
      · rw [found] at split
        have back := congrArg List.reverse split
        rw [List.reverse_append, List.reverse_reverse, List.reverse_cons, List.append_assoc] at back
        exact back.symm
      · rw [List.reverse_reverse]
        exact ends
      · rw [List.all_reverse, List.all_eq_true]
        intro c hc
        exact List.mem_takeWhile_imp hc
    · cases ends
  · rintro ⟨inner, behind, rfl, cased, skipped⟩
    have found : (inner ++ 'Σ' :: behind).reverse.dropWhile isCaseIgnorable =
        'Σ' :: inner.reverse := by
      have all : ∀ c ∈ behind.reverse, isCaseIgnorable c = true := by simpa using skipped
      rw [List.reverse_append, List.reverse_cons, List.append_assoc,
        List.dropWhile_append_of_pos all]
      simp [sigma]
    rw [endsInSigma, found]
    exact cased

/-- The lower case of a text is a beginning of the lower case of the text with more behind it,
unless the text ends in a sigma that is not at the end of a word there. -/
theorem lowercase_prefix_iff (front more : List Char) :
    lowercase front <+: lowercase (front ++ more) ↔
      (endsInSigma front && meetsCased more) = false := by
  have length := lowercaseUpTo_length false true [] front
  have ends : endsInSigma front = true ↔
      lowercaseUpTo true [] front ≠ lowercaseUpTo false [] front := by
    rw [lowercaseUpTo_ne_iff, endsInSigma_iff]
    simp only [List.append_nil]
  unfold lowercase
  rw [lowercaseAfter_append, lowercaseAfter_eq]
  cases cased : meetsCased more with
  | false => simp
  | true =>
    rw [Bool.and_true, ← Bool.not_eq_true, ends, not_not]
    constructor
    · intro starts
      have prefixes := List.prefix_of_prefix_length_le starts (List.prefix_append _ _) length.le
      exact (prefixes.eq_of_length length).symm
    · intro same
      rw [← same]
      exact List.prefix_append _ _

end Text

namespace Completion

/-- A candidate that begins with what has been typed does so in lower case too. -/
def keepsBeginning (typed candidate : Text) : Bool :=
  !(Text.endsInSigma typed && Text.meetsCased (candidate.drop typed.length))

/-- Which of the texts that begin with what has been typed are accepted where case does not
matter. -/
theorem accepts_ignoringCase {c : Config} {candidate typed : Text}
    (h : ({ c with ignoreCase := false } : Config).accepts candidate typed = true) :
    ({ c with ignoreCase := true } : Config).accepts candidate typed =
      keepsBeginning typed candidate := by
  unfold Config.accepts at h ⊢
  rw [if_neg (by simp), List.isPrefixOf_iff_prefix] at h
  obtain ⟨more, rfl⟩ := h
  rw [if_pos rfl, Bool.eq_iff_iff, List.isPrefixOf_iff_prefix, Text.lowercase_prefix_iff,
    keepsBeginning, List.drop_left, Bool.not_eq_true']

/-- Take any source, with the Python grammar, and complete at any position of it with letter case and
without. A candidate is lost without case if and only if what has been typed ends in a capital sigma
and the candidate goes on with a letter. The others are among the candidates without case in the
same order; so these are all of them if what has been typed does not end in a capital sigma. -/
theorem lost_iff (source : Text) : ∃ g, Grammar.python = .ok g ∧ ∃ m,
    Module.parse g source = .ok m ∧ ∀ pos modulePath (c : Config), ∃ plain folded,
      complete g m source pos (Scope.evaluator modulePath) { c with ignoreCase := false } =
        .ok plain ∧
      complete g m source pos (Scope.evaluator modulePath) { c with ignoreCase := true } =
        .ok folded ∧
      (∀ x ∈ plain.candidates, x ∈ folded.candidates ↔
        ¬ (Text.endsInSigma plain.parts.name = true ∧
          Text.meetsCased (x.drop plain.parts.name.length) = true)) ∧
      (plain.candidates.filter (keepsBeginning plain.parts.name)).Sublist folded.candidates ∧
      (Text.endsInSigma plain.parts.name = false →
        plain.candidates.Sublist folded.candidates) := by
  obtain ⟨m, parsed, -⟩ := Module.parse_of_layered Grammar.python_consistent
    Grammar.python_layered source
  refine ⟨_, Grammar.python_eq, m, parsed, fun pos modulePath c => ?_⟩
  obtain ⟨found, known⟩ := expectedAt_ok Grammar.python_consistent Grammar.python_layered source m
    (nameStart source pos)
  refine ⟨_, _, complete_eq known, complete_eq known, ?_⟩
  dsimp only
  -- the same is offered, and letter case makes a difference to what is accepted of it only
  have same :
      choices { c with ignoreCase := false } m source pos (Scope.evaluator modulePath) found =
        choices { c with ignoreCase := true } m source pos (Scope.evaluator modulePath) found := by
    cases found <;> rfl
  rw [same]
  generalize choices { c with ignoreCase := true } m source pos (Scope.evaluator modulePath) found =
    offered
  generalize (Parts.ofPath (pathUntil source pos)).name = typed
  have kept : ((offered.filter (Config.accepts { c with ignoreCase := false } · typed)).filter
      (keepsBeginning typed)).Sublist
        (offered.filter (Config.accepts { c with ignoreCase := true } · typed)) := by
    rw [List.filter_congr fun x hx => (accepts_ignoringCase (List.mem_filter.1 hx).2).symm,
      List.filter_comm]
    exact List.filter_sublist
  refine ⟨fun x hx => ?_, kept, fun ends => ?_⟩
  · obtain ⟨hx, accepted⟩ := List.mem_filter.1 hx
    rw [List.mem_filter, accepts_ignoringCase accepted, keepsBeginning]
    cases Text.endsInSigma typed <;> simp [hx]
  · rwa [List.filter_eq_self.2 fun x _ => by rw [keepsBeginning, ends]; rfl] at kept

/-- A name that begins with the two capitals typed before the cursor. In lower case the second of
them is final where it has been typed, and not in the name. -/
theorem sigma_lost : ∃ g m plain folded, Grammar.python = .ok g ∧
    Module.parse g "ΑΣΑ = 1\nΑΣ\n".toList = .ok m ∧
    complete g m "ΑΣΑ = 1\nΑΣ\n".toList ⟨2, 2⟩ (Scope.evaluator none)
      { Config.default with ignoreCase := false } = .ok plain ∧
    complete g m "ΑΣΑ = 1\nΑΣ\n".toList ⟨2, 2⟩ (Scope.evaluator none)
      { Config.default with ignoreCase := true } = .ok folded ∧
    plain.candidates = ["ΑΣΑ".toList] ∧ folded.candidates = [] ∧
    ¬ plain.candidates.Sublist folded.candidates := by
  obtain ⟨m, parsed, -⟩ := Module.parse_of_layered Grammar.python_consistent
    Grammar.python_layered "ΑΣΑ = 1\nΑΣ\n".toList
  have computed : (Module.parse Grammar.pythonTables "ΑΣΑ = 1\nΑΣ\n".toList).toOption.any
      (fun m =>
        decide ((complete Grammar.pythonTables m "ΑΣΑ = 1\nΑΣ\n".toList ⟨2, 2⟩
          (Scope.evaluator none) { Config.default with ignoreCase := false }).toOption.map
            (·.candidates) = some ["ΑΣΑ".toList]) &&
        decide ((complete Grammar.pythonTables m "ΑΣΑ = 1\nΑΣ\n".toList ⟨2, 2⟩
          (Scope.evaluator none) { Config.default with ignoreCase := true }).toOption.map
            (·.candidates) = some [])) = true := by
    decide +kernel
  rw [parsed, Except.toOption, Option.any_some, Bool.and_eq_true, decide_eq_true_eq,
    decide_eq_true_eq, Option.map_eq_some_iff, Option.map_eq_some_iff] at computed
  obtain ⟨⟨plain, completed, one⟩, folded, completed', none⟩ := computed
  have answer {r : Except CompletionError Report} {report : Report}
      (h : r.toOption = some report) : r = .ok report := by
    cases r with
    | error e => cases h
    | ok r => exact congrArg Except.ok (Option.some.inj h)
  refine ⟨_, m, plain, folded, Grammar.python_eq, parsed, answer completed, answer completed', one,
    none, fun all => ?_⟩
  rw [one, none] at all
  cases all

end Completion

end Caret

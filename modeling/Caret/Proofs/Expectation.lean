import Caret.Completion.Expected
import Caret.Proofs.Feeding
/-!
# What may come next is what the parser takes

The scan for what may come next walks down the open frames and takes in what each arc can start
with; the parser looks for the first arc that takes its token and enters and closes rules on the
way. Both come to the labels that fit (`Parser.Fits`), recoveries or not.

Results:
* `Expected.scan_gathers`: the scan does not fail, and has taken in the labels that fit.
* `expected_iff_shifted`: a label may come next if and only if a token of it is shifted.
-/
namespace Caret

namespace Completion

variable {g : Grammar} {e : Expected} {l : Nat} {a : Arc} {r sub : RuleTable} {s : Nat}

namespace Expected

/-- The label is a reserved word or token type that was taken in. -/
def Holds (g : Grammar) (e : Expected) (l : Nat) : Prop :=
  (∃ k, g.label? l = some (.keyword k) ∧ k ∈ e.keywords) ∨
    ∃ kind, g.label? l = some (.token kind) ∧ kind ∈ e.kinds

/-- With a rule that was taken in, all that it can start with was. -/
def Closed (g : Grammar) (e : Expected) : Prop :=
  ∀ {i : Nat} {sub : RuleTable}, i ∈ e.expanded → g.rule? i = some sub →
    ∀ l ∈ sub.first, e.Holds g l

theorem holds_sorted : e.sorted.Holds g l ↔ e.Holds g l := by
  simp [Holds, sorted, Keyword.mem_all, TokenKind.mem_all]

/-- Taking in a terminal takes in that terminal and nothing else. -/
theorem addLabel_terminal (ok : g.Consistent) (h : g.isTerminal l = true) (n : Nat)
    (e : Expected) : ∃ e', addLabel g (n + 1) e l = .ok e' ∧ e'.expanded = e.expanded ∧
      ∀ l', e'.Holds g l' ↔ e.Holds g l' ∨ l' = l := by
  unfold Grammar.isTerminal at h
  rw [addLabel]
  split at h
  · next k hl =>
    rw [hl]
    refine ⟨_, rfl, rfl, fun l' => ⟨?_, ?_⟩⟩
    · rintro (⟨k', hl', hk⟩ | hkind)
      · rcases List.mem_append.1 hk with hk | hk
        · exact .inl (.inl ⟨k', hl', hk⟩)
        · rw [List.mem_singleton.1 hk] at hl'
          exact .inr (ok.distinct hl' hl)
      · exact .inl (.inr hkind)
    · rintro ((⟨k', hl', hk⟩ | hkind) | rfl)
      · exact .inl ⟨k', hl', List.mem_append_left _ hk⟩
      · exact .inr hkind
      · exact .inl ⟨k, hl, List.mem_append_right _ (List.mem_singleton_self k)⟩
  · next kind hl =>
    rw [hl]
    refine ⟨_, rfl, rfl, fun l' => ⟨?_, ?_⟩⟩
    · rintro (hword | ⟨kind', hl', hk⟩)
      · exact .inl (.inl hword)
      · rcases List.mem_append.1 hk with hk | hk
        · exact .inl (.inr ⟨kind', hl', hk⟩)
        · rw [List.mem_singleton.1 hk] at hl'
          exact .inr (ok.distinct hl' hl)
    · rintro ((hword | ⟨kind', hl', hk⟩) | rfl)
      · exact .inl hword
      · exact .inr ⟨kind', hl', List.mem_append_left _ hk⟩
      · exact .inr ⟨kind, hl, List.mem_append_right _ (List.mem_singleton_self kind)⟩
  · cases h

/-- Taking in terminals takes in those and nothing else. -/
theorem addLabels_terminals (ok : g.Consistent) {ls : List Nat}
    (h : ∀ l ∈ ls, g.isTerminal l = true) (n : Nat) (e : Expected) :
    ∃ e', ls.foldlM (addLabel g (n + 1)) e = .ok e' ∧ e'.expanded = e.expanded ∧
      ∀ l, e'.Holds g l ↔ e.Holds g l ∨ l ∈ ls := by
  induction ls generalizing e with
  | nil => exact ⟨e, rfl, rfl, by simp⟩
  | cons l ls ih =>
    obtain ⟨e₁, h₁, expanded₁, holds₁⟩ := addLabel_terminal ok (h l List.mem_cons_self) n e
    obtain ⟨e₂, h₂, expanded₂, holds₂⟩ := ih (fun l hl => h l (List.mem_cons_of_mem _ hl)) e₁
    refine ⟨e₂, ?_, expanded₂.trans expanded₁, fun l' => ?_⟩
    · rw [List.foldlM_cons, h₁]; exact h₂
    · rw [holds₂, holds₁, List.mem_cons, or_assoc]

/-- A step that does not fail takes in these terminals and nothing else. -/
def Gathers (g : Grammar) (step : Expected → Except CompletionError Expected) (P : Nat → Prop) :
    Prop :=
  ∀ e : Expected, e.Closed g → ∃ e', step e = .ok e' ∧ e'.Closed g ∧
    ∀ l, g.isTerminal l = true → (e'.Holds g l ↔ e.Holds g l ∨ P l)

theorem Gathers.congr {step : Expected → Except CompletionError Expected} {P Q : Nat → Prop}
    (h : Gathers g step P) (same : ∀ l, g.isTerminal l = true → (P l ↔ Q l)) :
    Gathers g step Q := by
  intro e closed
  obtain ⟨e', h, closed', holds⟩ := h e closed
  exact ⟨e', h, closed', fun l hl => by rw [holds l hl, same l hl]⟩

/-- Steps one after the other take in what each of them does. -/
theorem Gathers.foldlM {α : Type} {step : Expected → α → Except CompletionError Expected}
    {P : α → Nat → Prop} {xs : List α} (h : ∀ x ∈ xs, Gathers g (step · x) (P x)) :
    Gathers g (xs.foldlM step) fun l => ∃ x ∈ xs, P x l := by
  induction xs with
  | nil => exact fun e closed => ⟨e, rfl, closed, fun l _ => by simp⟩
  | cons x xs ih =>
    intro e closed
    obtain ⟨e₁, h₁, closed₁, holds₁⟩ := h x List.mem_cons_self e closed
    obtain ⟨e₂, h₂, closed₂, holds₂⟩ := ih (fun y hy => h y (List.mem_cons_of_mem _ hy)) e₁ closed₁
    refine ⟨e₂, ?_, closed₂, fun l hl => ?_⟩
    · show (x :: xs).foldlM step e = .ok e₂
      rw [List.foldlM_cons]
      exact Except.bind_ok.2 ⟨e₁, h₁, h₂⟩
    · rw [holds₂ l hl, holds₁ l hl, or_assoc]
      simp only [List.exists_mem_cons_iff]

/-- Taking in the label of an arc takes in the terminals that the arc takes. -/
theorem addLabel_gathers (ok : g.Consistent) (hr : r ∈ g.rules) (ha : a ∈ r.arcs s)
    (hne : a.label ≠ 0) (n : Nat) : Gathers g (addLabel g (n + 2) · a.label) (g.Takes a) := by
  intro e closed
  rcases ok.label hr ha with hzero | hterm | ⟨sub, hsub⟩
  · exact absurd hzero hne
  · obtain ⟨e', h, expanded, holds⟩ := addLabel_terminal ok hterm (n + 1) e
    refine ⟨e', h, fun hi hs l hl => ?_, fun l _ => ?_⟩
    · rw [expanded] at hi
      exact (holds l).2 (.inl (closed hi hs l hl))
    · rw [holds, Grammar.takes_terminal hterm]
  · have known := hsub.mem
    have takes {l : Nat} (hl : g.isTerminal l = true) := hsub.takes_iff hl
    obtain ⟨j, hj, hs⟩ := hsub
    dsimp only
    rw [addLabel, hj]
    dsimp only
    split
    · next seen =>
      refine ⟨e, rfl, closed, fun l hl => ?_⟩
      rw [takes hl]
      exact ⟨.inl, fun h => h.elim id (closed (by simpa using seen) hs l)⟩
    · rw [hs]
      have terminals : ∀ l ∈ sub.first, g.isTerminal l = true :=
        fun l hl => ((ok.mem_first known).1 hl).1
      obtain ⟨e', h, expanded, holds⟩ :=
        addLabels_terminals ok terminals n { e with expanded := e.expanded ++ [j] }
      -- the terminals of the rule that was marked are there now
      have all (l : Nat) : e'.Holds g l ↔ e.Holds g l ∨ l ∈ sub.first := holds l
      refine ⟨e', h, fun {i q} hi hq l hl => (all l).2 ?_, fun l hl => by rw [all, takes hl]⟩
      rw [expanded] at hi
      rcases List.mem_append.1 hi with hi | hi
      · exact .inl (closed hi hq l hl)
      · rw [List.mem_singleton.1 hi, hs] at hq; cases hq
        exact .inr hl

/-- The scan of open frames takes in the labels that fit. -/
theorem scan_gathers (ok : g.Consistent) {stack : List Frame}
    (known : ∀ f ∈ Parser.spineOf stack, f.1 ∈ g.rules) :
    Gathers g (scan g stack) fun l => Parser.Fits g l (Parser.spineOf stack) := by
  induction stack with
  | nil => exact fun e closed => ⟨e, rfl, closed, fun l _ => by simp [Parser.spineOf, Parser.Fits]⟩
  | cons f below ih =>
    have hf : f.rule ∈ g.rules := known (f.rule, f.state) List.mem_cons_self
    have next := ih fun f' h => known f' (List.mem_cons_of_mem _ h)
    -- the empty arc stands for the frames below, every other arc for what it takes
    have arcs : Gathers g (scan g (f :: below)) fun l => ∃ a ∈ f.arcs,
        if a.label = 0 then Parser.Fits g l (Parser.spineOf below) else g.Takes a l := by
      refine Gathers.foldlM fun a ha => ?_
      by_cases hzero : a.label = 0
      · simp only [if_pos hzero]; exact next
      · simp only [if_neg hzero]; exact addLabel_gathers ok hf ha hzero _
    refine arcs.congr fun l hl => ?_
    have fits : Parser.Fits g l (Parser.spineOf (f :: below)) ↔
        (∃ a ∈ f.arcs, g.Takes a l) ∨
          (f.rule.accepts f.state = true ∧ Parser.Fits g l (Parser.spineOf below)) := .rfl
    rw [fits]
    constructor
    · rintro ⟨a, ha, h⟩
      split at h
      · next hzero =>
        exact .inr ⟨List.any_eq_true.2 ⟨a, ha, by simpa using hzero⟩, h⟩
      · exact .inl ⟨a, ha, h⟩
    · rintro (⟨a, ha, takes⟩ | ⟨accepts, fits⟩)
      · refine ⟨a, ha, ?_⟩
        rw [if_neg fun hzero => ok.not_takes hzero hl takes]
        exact takes
      · obtain ⟨a, ha, hzero⟩ := List.any_eq_true.1 accepts
        exact ⟨a, ha, by rwa [if_pos (by simpa using hzero)]⟩

end Expected

/-- Every terminal of the tables is the label of some token. -/
theorem exists_classify (ok : g.Consistent) (h : g.isTerminal l = true) :
    ∃ t, Parser.classify g t = some l := by
  unfold Grammar.isTerminal at h
  split at h
  · next k hl =>
    refine ⟨⟨.name, k.spelling.toList, [], .start⟩, ?_⟩
    simp only [Parser.classify, Grammar.keywordLabel?, Keyword.ofText?_spelling, if_true,
      Option.bind_some, ok.idxOf? hl, Option.some_or]
  · next kind hl =>
    refine ⟨⟨kind, [], [], .start⟩, ?_⟩
    have empty : Keyword.ofText? [] = none := by decide
    simp only [Parser.classify, Grammar.tokenLabel?, empty, Option.bind_none, ite_self,
      Option.none_or, ok.idxOf? hl]
  · cases h

/-- Whatever was fed, what may come next can be told, and a label may come next if and only if a
token of that label is shifted, without recovery. When the start rule is complete that is none. -/
theorem expected_iff_shifted {lines : List Text} (h : Grammar.ofLines lines = .ok g)
    (tokens : List Token) :
    ∃ e, expected g (Parser.fed g tokens).stack = .ok e ∧ ∀ l, g.isTerminal l = true →
      (∃ t, Parser.classify g t = some l) ∧
      ∀ t, Parser.classify g t = some l →
        (e.Holds g l ↔
          ∃ done p, Parser.shift g t (Parser.fed g tokens) = (.shifted done, p)) := by
  have ok := Grammar.consistent_of_ofLines h
  have known := Parser.known_fed ok tokens
  have nothing : Expected.nothing.Closed g := fun hi => absurd hi List.not_mem_nil
  obtain ⟨e, scanned, -, holds⟩ := Expected.scan_gathers ok known .nothing nothing
  refine ⟨e.sorted, ?_, fun l hl => ⟨exists_classify ok hl, fun t ht => ?_⟩⟩
  · rw [expected, scanned]; rfl
  · rw [Expected.holds_sorted, holds l hl]
    have shifted := (Parser.runs_shift ok known ht).shifted_iff ok
    have nothing : ¬ Expected.nothing.Holds g l := by simp [Expected.Holds, Expected.nothing]
    rw [or_iff_right nothing]
    refine shifted.symm.trans ?_
    exact exists_congr fun done => ⟨fun hd => ⟨_, Prod.ext hd rfl⟩, fun ⟨p, hp⟩ => by rw [hp]⟩

/-- Behind a name `if` may come next, and another name may not. -/
theorem expected_after_name :
    ∃ g, Grammar.ofLines ["s: e ENDMARKER".toList, "e: NAME ['if' NAME]".toList] = .ok g ∧
      ∃ e, expected g (Parser.fed g [⟨.name, ['x'], [], .start⟩]).stack = .ok e ∧
        (∃ l, Parser.classify g ⟨.name, "if".toList, [' '], ⟨1, 2⟩⟩ = some l ∧ e.Holds g l) ∧
        ∃ l, Parser.classify g ⟨.name, "y".toList, [' '], ⟨1, 2⟩⟩ = some l ∧ ¬ e.Holds g l := by
  let shifts (g : Grammar) (word : String) : Bool :=
    (Parser.shift g ⟨.name, word.toList, [' '], ⟨1, 2⟩⟩
      (Parser.fed g [⟨.name, ['x'], [], .start⟩])).1 matches .shifted _
  have computed : (Grammar.ofLines
      ["s: e ENDMARKER".toList, "e: NAME ['if' NAME]".toList]).toOption.any (fun g =>
        shifts g "if" && !shifts g "y" && ["if", "y"].all fun word =>
          (Parser.classify g ⟨.name, word.toList, [' '], ⟨1, 2⟩⟩).any g.isTerminal) = true := by
    decide +kernel
  obtain ⟨g, compiled, facts⟩ := Except.exists_ok_any computed
  simp only [Bool.and_eq_true, Bool.not_eq_true', List.all_cons, List.all_nil, Bool.and_true,
    Option.any_eq_true] at facts
  obtain ⟨⟨takes, refuses⟩, ⟨l, classified, terminal⟩, l', classified', terminal'⟩ := facts
  obtain ⟨e, scanned, offered⟩ := expected_iff_shifted compiled [⟨.name, ['x'], [], .start⟩]
  refine ⟨g, compiled, e, scanned, ⟨l, classified, ?_⟩, l', classified', fun holds => ?_⟩
  · refine ((offered l terminal).2 _ classified).2 ?_
    simp only [shifts] at takes
    split at takes
    · next done h => exact ⟨done, _, Prod.ext h rfl⟩
    · cases takes
  · obtain ⟨done, p, shifted⟩ := ((offered l' terminal').2 _ classified').1 holds
    dsimp only [shifts] at refuses
    rw [shifted] at refuses
    cases refuses

end Completion

end Caret

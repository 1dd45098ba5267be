import Caret.Proofs.Prediction
import Caret.Proofs.PythonTables
/-!
# The Python grammar needs one token of foresight

Whether one token of foresight is enough can be computed from the tables. Sets of labels are the
bits of numbers; what may come behind each rule is gathered in sweeps over all arcs, and the check
shows afterwards that nothing is missing.

Results:
* `predictive_of_check`: tables that pass the check are predictive.
* `python_predictive`: the tables of the Python grammar pass it.
* `accepts_language`: the parser accepts words of the language only, and with the Python grammar
  it accepts all of them.
-/
namespace Caret

namespace Grammar

variable {g : Grammar} {r sub : RuleTable} {s l : Nat} {a b : Arc} {arcs : List Arc}
  {behind : List Nat}

/-! ## Sets of labels -/

/-- The labels as the bits of a number. -/
def bits (labels : List Nat) : Nat := labels.foldr (fun l n => 2 ^ l ||| n) 0

theorem testBit_bits {labels : List Nat} : (bits labels).testBit l = true ↔ l ∈ labels := by
  induction labels with
  | nil => simp [bits]
  | cons k labels ih =>
    have : bits (k :: labels) = 2 ^ k ||| bits labels := rfl
    rw [this, Nat.testBit_or, Bool.or_eq_true, ih, Nat.testBit_two_pow, List.mem_cons,
      decide_eq_true_eq, eq_comm]

/-- The union of sets. -/
def union (sets : List Nat) : Nat := sets.foldr (· ||| ·) 0

theorem testBit_union {sets : List Nat} {set : Nat} (h : set ∈ sets) (hl : set.testBit l = true) :
    (union sets).testBit l = true := by
  induction sets with
  | nil => cases h
  | cons first sets ih =>
    have : union (first :: sets) = first ||| union sets := rfl
    rw [this, Nat.testBit_or, Bool.or_eq_true]
    rcases List.mem_cons.1 h with rfl | h
    · exact .inl hl
    · exact .inr (ih h)

/-- No two of the sets share a label. -/
def apart : List Nat → Bool
  | [] => true
  | set :: sets => sets.all (set &&& · == 0) && apart sets

theorem not_both {m n : Nat} (h : (m &&& n == 0) = true) (hm : m.testBit l = true)
    (hn : n.testBit l = true) : False := by
  have := congrArg (·.testBit l) (beq_iff_eq.1 h)
  simp [Nat.testBit_and, hm, hn] at this

theorem eq_of_apart {α : Type} {f : α → Nat} {xs : List α} {x y : α}
    (h : apart (xs.map f) = true) (hx : x ∈ xs) (hy : y ∈ xs) (hfx : (f x).testBit l = true)
    (hfy : (f y).testBit l = true) : x = y := by
  induction xs with
  | nil => cases hx
  | cons z xs ih =>
    rw [List.map_cons, apart, Bool.and_eq_true] at h
    have first {w : α} (hw : w ∈ xs) (hfw : (f w).testBit l = true) : ¬ (f z).testBit l = true :=
      fun hfz => not_both (List.all_eq_true.1 h.1 _ (List.mem_map_of_mem hw)) hfz hfw
    rcases List.mem_cons.1 hx with rfl | hx' <;> rcases List.mem_cons.1 hy with rfl | hy'
    · rfl
    · exact absurd hfx (first hy' hfy)
    · exact absurd hfy (first hx' hfx)
    · exact ih h.2 hx' hy'

/-! ## The check -/

/-- The rule that an arc is labelled with. -/
def entered? (g : Grammar) (a : Arc) : Option RuleTable :=
  match g.label? a.label with
  | some (.rule j) => g.rule? j
  | _ => none

theorem entered?_eq : g.entered? a = some sub ↔ g.Enters a sub := by
  unfold entered? Enters
  constructor
  · intro h
    split at h
    · next j hj => exact ⟨j, hj, h⟩
    · cases h
  · rintro ⟨j, hj, hs⟩
    rw [hj]
    exact hs

/-- The terminals that an arc takes. -/
def takenBy (g : Grammar) (a : Arc) : Nat :=
  match g.entered? a with
  | some sub => bits sub.first
  | none => if a.label = 0 then 0 else 2 ^ a.label

/-- The terminals that some of the arcs take. -/
def takenAt (g : Grammar) (arcs : List Arc) : Nat := union (arcs.map g.takenBy)

theorem testBit_takenBy (ok : g.Consistent) (hl : g.isTerminal l = true) (h : g.Takes a l) :
    (g.takenBy a).testBit l = true := by
  unfold takenBy
  split
  · next sub hsub => rwa [testBit_bits, ← (entered?_eq.1 hsub).takes_iff hl]
  · next none =>
    rcases h with rfl | ⟨sub, hsub, -⟩
    · have nonzero : a.label ≠ 0 := by
        intro hzero
        rw [hzero, isTerminal, ok.empty] at hl
        cases hl
      rw [if_neg nonzero, Nat.testBit_two_pow_self]
    · rw [entered?_eq.2 hsub] at none; cases none

theorem testBit_takenAt (ok : g.Consistent) (hl : g.isTerminal l = true) (ha : a ∈ arcs)
    (h : g.Takes a l) : (g.takenAt arcs).testBit l = true :=
  testBit_union (List.mem_map_of_mem ha) (testBit_takenBy ok hl h)

/-- What may come behind the rule on an arc of `r`, given what may come behind `r` itself. -/
def behindArc (g : Grammar) (behind : List Nat) (r : RuleTable) (a : Arc) : Nat :=
  g.takenAt (r.arcs a.target) ||| if r.accepts a.target then behind.getD r.index 0 else 0

/-- The arcs of a state take different terminals, none of them may come behind the rule if it may
end here, and what may come behind the rules on the arcs is among what is listed for them. -/
def checkState (g : Grammar) (behind : List Nat) (r : RuleTable) (arcs : List Arc) : Bool :=
  apart (arcs.map g.takenBy) &&
    (!arcs.any (·.label == 0) || g.takenAt arcs &&& behind.getD r.index 0 == 0) &&
    arcs.all fun a =>
      match g.entered? a with
      | some sub => behind.getD sub.index 0 ||| g.behindArc behind r a == behind.getD sub.index 0
      | none => true

/-- No rule may end at once, and all states pass. -/
def check (g : Grammar) (behind : List Nat) : Bool :=
  g.rules.toList.all fun r => !r.accepts 0 && r.states.toList.all (g.checkState behind r)

/-- What may come behind each rule, gathered in one sweep over all arcs. -/
def sweep (g : Grammar) (behind : List Nat) : List Nat :=
  g.rules.toList.foldl (fun behind r => r.states.toList.foldl (fun behind arcs =>
    arcs.foldl (fun behind a =>
      match g.entered? a with
      | some sub => behind.modify sub.index (· ||| g.behindArc behind r a)
      | none => behind) behind) behind) behind

/-- What is gathered in so many sweeps. -/
def sweeps (g : Grammar) : Nat → List Nat
  | 0 => List.replicate g.rules.size 0
  | n + 1 => g.sweep (g.sweeps n)

/-- The label may come behind the rule. -/
def Behind (behind : List Nat) (r : RuleTable) (l : Nat) : Prop :=
  (behind.getD r.index 0).testBit l = true

theorem arcs_mem_states (h : a ∈ r.arcs s) : r.arcs s ∈ r.states.toList := by
  unfold RuleTable.arcs at *
  cases hs : r.states[s]? with
  | none => rw [hs] at h; cases h
  | some arcs => exact Array.mem_toList_iff.2 (Array.mem_of_getElem? hs)

theorem lt_size_of_mem_arcs (h : a ∈ r.arcs s) : s < r.states.size := by
  unfold RuleTable.arcs at h
  cases hs : r.states[s]? with
  | none => rw [hs] at h; cases h
  | some arcs => exact (Array.getElem?_eq_some_iff.1 hs).1

/-- Tables that pass the check need one token of foresight. -/
theorem predictive_of_check (ok : g.Consistent) (h : g.check behind = true) :
    g.Predictive (Behind behind) := by
  have passes {r : RuleTable} (hr : r ∈ g.rules) :
      r.accepts 0 = false ∧ ∀ arcs ∈ r.states.toList, g.checkState behind r arcs = true := by
    have := List.all_eq_true.1 h r (Array.mem_toList_iff.2 hr)
    rw [Bool.and_eq_true, List.all_eq_true, Bool.not_eq_true'] at this
    exact this
  have state {r : RuleTable} {s : Nat} {a : Arc} (hr : r ∈ g.rules) (ha : a ∈ r.arcs s) :
      apart ((r.arcs s).map g.takenBy) = true ∧
        (r.accepts s = true → (g.takenAt (r.arcs s) &&& behind.getD r.index 0 == 0) = true) ∧
        ∀ sub, g.Enters a sub → ∀ l, (g.behindArc behind r a).testBit l = true →
          Behind behind sub l := by
    have checked := (passes hr).2 _ (arcs_mem_states ha)
    rw [checkState, Bool.and_eq_true, Bool.and_eq_true, List.all_eq_true] at checked
    obtain ⟨⟨different, ending⟩, listed⟩ := checked
    refine ⟨different, fun accepts => ?_, fun sub hsub l hl => ?_⟩
    · rw [RuleTable.accepts] at accepts
      rwa [accepts, Bool.not_true, Bool.false_or] at ending
    · have contained := listed a ha
      rw [entered?_eq.2 hsub] at contained
      rw [Behind, ← beq_iff_eq.1 contained, Nat.testBit_or, hl, Bool.or_true]
  refine ⟨fun hr => (passes hr).1, ?_, ?_, ?_, ?_⟩
  · intro r s l a b hr ha hb hl htakes htakes'
    exact eq_of_apart (state hr ha).1 ha hb (testBit_takenBy ok hl htakes)
      (testBit_takenBy ok hl htakes')
  · intro r s l a hr accepts ha hl takes hbehind
    exact not_both ((state hr ha).2.1 accepts) (testBit_takenAt ok hl ha takes) hbehind
  · intro r sub s l a b hr ha hsub hb hl takes
    refine (state hr ha).2.2 sub hsub l ?_
    rw [behindArc, Nat.testBit_or, testBit_takenAt ok hl hb takes, Bool.true_or]
  · intro r sub s l a hr ha hsub accepts hbehind
    refine (state hr ha).2.2 sub hsub l ?_
    rw [behindArc, Nat.testBit_or, if_pos accepts, hbehind, Bool.or_true]

/-! ## The Python grammar -/

/-- The states of the start rule pass: one that may end can do nothing else, and no rule inside
leads to it. -/
def checkStart (g : Grammar) (start : RuleTable) : Bool :=
  (List.range start.states.size).all fun s =>
    (!start.accepts s || start.acceptsOnly s) &&
      (start.arcs s).all fun a => (g.entered? a).isNone || !start.accepts a.target

theorem endsOnce_of_checkStart {start : RuleTable} (hs : g.start? = some start)
    (h : g.checkStart start = true) : g.EndsOnce := by
  have state {s : Nat} {a : Arc} (ha : a ∈ start.arcs s) :
      (start.accepts s = true → start.acceptsOnly s = true) ∧
        ∀ sub, g.Enters a sub → start.accepts a.target = false := by
    have checked := List.all_eq_true.1 h s (List.mem_range.2 (lt_size_of_mem_arcs ha))
    rw [Bool.and_eq_true, List.all_eq_true] at checked
    obtain ⟨only, inner⟩ := checked
    refine ⟨fun accepts => ?_, fun sub hsub => ?_⟩
    · rwa [accepts, Bool.not_true, Bool.false_or] at only
    · have checked := inner a ha
      rw [entered?_eq.2 hsub, Option.isNone_some, Bool.false_or, Bool.not_eq_true'] at checked
      exact checked
  refine ⟨fun hs' accepts => ?_, fun hs' ha hsub => ?_⟩
  · rw [hs] at hs'
    cases hs'
    obtain ⟨a, ha, -⟩ := List.any_eq_true.1 accepts
    exact (state ha).1 accepts
  · rw [hs] at hs'
    cases hs'
    exact (state ha).2 _ hsub

theorem python_consistent : pythonTables.Consistent := consistent_of_ofLines python_eq

/-- The Python grammar needs one token of foresight. Three sweeps reach all that may come behind its
rules. -/
theorem python_predictive : pythonTables.Predictive (Behind (pythonTables.sweeps 3)) :=
  predictive_of_check python_consistent (by decide +kernel)

theorem python_endsOnce : pythonTables.EndsOnce := by
  obtain ⟨start, hs⟩ := python_consistent.start
  have checked : (pythonTables.start?.all (checkStart pythonTables)) = true := by decide +kernel
  rw [hs] at checked
  exact endsOnce_of_checkStart hs checked

end Grammar

namespace Parser

/-- With the tables of a description, tokens that a new parser accepts are labelled with a word of
the language. With those of the Python grammar the converse holds as well: tokens that are labelled
with a word of the language are fed without recovery, and the last of them and no other completes
the start rule. -/
theorem accepts_language :
    (∀ lines g, Grammar.ofLines lines = .ok g → ∀ tokens, Accepts g (new g) tokens →
      ∃ w, tokens.map (classify g) = w.map some ∧ g.Language w) ∧
    (∀ g, Grammar.python = .ok g → ∀ tokens w, tokens.map (classify g) = w.map some →
      g.Language w → ∀ before t after, tokens = before ++ t :: after →
        ¬ Recovers g t (fed g before) ∧ (feed g t (fed g before)).1 = .ok after.isEmpty) := by
  constructor
  · intro lines g h tokens accepts
    exact language_of_accepts (Grammar.consistent_of_ofLines h) accepts
  · intro g h tokens w labels hw before t after split
    rw [Grammar.python_eq] at h
    cases h
    exact fed_language Grammar.python_consistent Grammar.python_predictive Grammar.python_endsOnce
      labels hw split

/-- The tokens of `x = 1` on a line, and the end marker. -/
def assignment : List Token :=
  [⟨.name, ['x'], [], ⟨1, 0⟩⟩, ⟨.op .equal, ['='], [' '], ⟨1, 2⟩⟩, ⟨.number, ['1'], [' '], ⟨1, 4⟩⟩,
    ⟨.newline, ['\n'], [], ⟨1, 5⟩⟩, ⟨.endMarker, [], [], ⟨2, 0⟩⟩]

/-- An assignment is accepted, so its tokens are labelled with a word of the language. For a word of
the language no token starts recovery, and the end marker alone completes the start rule. -/
theorem assignment_accepted :
    Accepts Grammar.pythonTables (new Grammar.pythonTables) assignment ∧
    ∃ w, assignment.map (classify Grammar.pythonTables) = w.map some ∧
      Grammar.pythonTables.Language w ∧
      ∀ before t after, assignment = before ++ t :: after →
        ¬ Recovers Grammar.pythonTables t (fed Grammar.pythonTables before) ∧
        (feed Grammar.pythonTables t (fed Grammar.pythonTables before)).1 = .ok after.isEmpty := by
  have each : ∀ k : Fin assignment.length,
      let p := feedFrom Grammar.pythonTables (new Grammar.pythonTables) (assignment.take k)
      ¬ Recovers Grammar.pythonTables assignment[k] p ∧
        ((feed Grammar.pythonTables assignment[k] p).1.toOption = some true ↔
          assignment.drop (k + 1) = []) := by
    decide +kernel
  have accepts : Accepts Grammar.pythonTables (new Grammar.pythonTables) assignment := by
    refine ⟨List.cons_ne_nil _ _, fun before t after split => ?_⟩
    have front : assignment.take before.length = before := by rw [split, List.take_left]
    have back : assignment.drop (before.length + 1) = after := by rw [split]; simp
    have here := each ⟨before.length, by rw [split]; simp⟩
    simp only [Fin.getElem_fin, List.getElem_of_append split rfl, front, back] at here
    refine ⟨here.1, Iff.trans ?_ here.2⟩
    cases (feed Grammar.pythonTables t (feedFrom Grammar.pythonTables (new _) before)).1 <;>
      simp [Except.toOption]
  obtain ⟨w, labels, word⟩ := accepts_language.1 _ _ Grammar.python_eq _ accepts
  exact ⟨accepts, w, labels, word, accepts_language.2 _ Grammar.python_eq _ w labels word⟩

end Parser

end Caret

import Caret.Proofs.Subsets
/-!
# Merging deterministic states

States that are the same, twins, are merged until there are none. `Dfa.Merges` is this loop without
a limit on its rounds; each round takes out a state, so it comes to an end. A merge renumbers the
states behind the one that it takes out, and sends the arcs that led there to its twin: every state
is found again at its new number, so no word can tell.

Results:
* `merges_simplify`: the loop comes to an end.
* `merge_getElem?`: where states are after a merge.
* `Merges.inRange`, `Merges.nodup`: arcs lead to states, and no two states are the same.
* `accepts_simplify`: merging twins keeps the accepted words.
* `simplify_ofNfa`: the states that are made of an automaton.
-/
namespace Caret.Dfa

variable {nfa : Nfa} {states merged : List State} {i keep drop : Nat} {w : List Text} {label : Text}

/-! ## One merge -/

/-- Where a state is found after a merge. -/
def redirect (keep drop t : Nat) : Nat := if t = drop then keep else if drop < t then t - 1 else t

/-- A state whose arcs lead to where their targets are found after a merge. -/
def State.redirected (keep drop : Nat) (s : State) : State :=
  { s with arcs := s.arcs.map fun (l, t) => (l, redirect keep drop t) }

theorem firstTwins?_ok (h : firstTwins? states = some (keep, drop)) :
    keep < drop ∧ drop < states.length ∧ states[keep]? = states[drop]? := by
  induction states generalizing keep drop with
  | nil => cases h
  | cons state rest ih =>
    rw [firstTwins?] at h
    split at h
    · next j hj =>
      cases h
      obtain ⟨hlt, heq, -⟩ := List.idxOf?_eq_some_iff.1 hj
      refine ⟨Nat.succ_pos j, by simpa using hlt, ?_⟩
      rw [List.getElem?_cons_succ, List.getElem?_eq_getElem hlt, heq, List.getElem?_cons_zero]
    · next =>
      obtain ⟨⟨k, d⟩, hrest, heq⟩ := Option.map_eq_some_iff.1 h
      cases heq
      obtain ⟨hlt, hd, same⟩ := ih hrest
      exact ⟨by omega, by simpa using hd, by simpa using same⟩

/-- A state is found again after its twin is merged into it, or it into its twin. -/
theorem merge_getElem? (hlt : keep < drop) (same : states[keep]? = states[drop]?) (t : Nat) :
    (merge keep drop states)[redirect keep drop t]? =
      (states[t]?).map (State.redirected keep drop) := by
  have merged (k : Nat) : (merge keep drop states)[k]? =
      ((states.eraseIdx drop)[k]?).map (State.redirected keep drop) := List.getElem?_map
  rw [merged, redirect]
  congr 1
  split
  · next h => subst h; rw [List.getElem?_eraseIdx_of_lt hlt, same]
  · split
    · next h =>
      obtain ⟨k, rfl⟩ : ∃ k, t = k + 1 := ⟨t - 1, by omega⟩
      rw [Nat.add_sub_cancel, List.getElem?_eraseIdx_of_ge (by omega)]
    · rw [List.getElem?_eraseIdx_of_lt (by omega)]

theorem acceptsFrom_merge (hlt : keep < drop) (same : states[keep]? = states[drop]?) :
    AcceptsFrom (merge keep drop states) (redirect keep drop i) w ↔ AcceptsFrom states i w := by
  induction w generalizing i with
  | nil =>
    rw [acceptsFrom_nil, acceptsFrom_nil, merge_getElem? hlt same]
    simp [State.redirected]
  | cons label w ih =>
    rw [acceptsFrom_cons, acceptsFrom_cons, merge_getElem? hlt same]
    constructor
    · rintro ⟨_, _, hs, ht, rest⟩
      obtain ⟨state, hstate, rfl⟩ := Option.map_eq_some_iff.1 hs
      obtain ⟨⟨l, t⟩, hmem, heq⟩ := List.mem_map.1 ht
      cases heq
      exact ⟨state, t, hstate, hmem, ih.1 rest⟩
    · rintro ⟨state, t, hstate, hmem, rest⟩
      refine ⟨_, _, by rw [hstate]; rfl, ?_, ih.2 rest⟩
      exact List.mem_map.2 ⟨(label, t), hmem, rfl⟩

/-- Every arc leads to a state. -/
def InRange (states : List State) : Prop :=
  ∀ state ∈ states, ∀ arc ∈ state.arcs, arc.2 < states.length

/-- A merge takes out one state, and arcs still lead to states. -/
theorem InRange.merge (h : InRange states) (hlt : keep < drop) (hd : drop < states.length) :
    InRange (merge keep drop states) := by
  have shorter : (Dfa.merge keep drop states).length = states.length - 1 := by
    rw [Dfa.merge, List.length_map, List.length_eraseIdx_of_lt hd]
  intro state hstate arc harc
  obtain ⟨old, hold, rfl⟩ := List.mem_map.1 hstate
  obtain ⟨⟨label, t⟩, ht, rfl⟩ := List.mem_map.1 harc
  have bound : t < states.length := h old (List.mem_of_mem_eraseIdx hold) _ ht
  rw [shorter]
  show redirect keep drop t < _
  unfold redirect
  split
  · omega
  · split <;> omega

/-! ## All merges -/

/-- Merging twins comes to an end, with these states. -/
inductive Merges : List State → List State → Prop
  | done {states : List State} (h : firstTwins? states = none) : Merges states states
  | round {states merged : List State} {keep drop : Nat}
      (h : firstTwins? states = some (keep, drop)) (rest : Merges (merge keep drop states) merged) :
      Merges states merged

/-- Each round takes out a state, so there are rounds enough. -/
theorem merges_mergeTwins {n : Nat} (rounds : states.length ≤ n) :
    Merges states (mergeTwins n states) := by
  induction n generalizing states with
  | zero =>
    obtain rfl := List.eq_nil_of_length_eq_zero (Nat.le_zero.1 rounds)
    exact .done rfl
  | succ n ih =>
    rw [mergeTwins]
    split
    · next h => exact .done h
    · next keep drop h =>
      obtain ⟨-, hd, -⟩ := firstTwins?_ok h
      refine .round h (ih ?_)
      rw [merge, List.length_map, List.length_eraseIdx_of_lt hd]
      omega

theorem merges_simplify (states : List State) : Merges states (simplify states) :=
  merges_mergeTwins (Nat.le_refl _)

theorem Merges.accepts (h : Merges states merged) : Accepts merged w ↔ Accepts states w := by
  induction h with
  | done => rfl
  | @round states merged keep drop h _ ih =>
    obtain ⟨hlt, -, same⟩ := firstTwins?_ok h
    have first : redirect keep drop 0 = 0 := by
      rw [redirect, if_neg (by omega), if_neg (by omega)]
    have one := acceptsFrom_merge (i := 0) (w := w) hlt same
    rw [first] at one
    exact ih.trans one

theorem Merges.inRange (h : Merges states merged) (inside : InRange states) : InRange merged := by
  induction h with
  | done => exact inside
  | round h _ ih =>
    obtain ⟨hlt, hd, -⟩ := firstTwins?_ok h
    exact ih (inside.merge hlt hd)

/-- States without twins are all different. -/
theorem nodup_of_firstTwins? (h : firstTwins? states = none) : states.Nodup := by
  induction states with
  | nil => exact .nil
  | cons state rest ih =>
    rw [firstTwins?] at h
    split at h
    · cases h
    · next alone =>
      exact List.nodup_cons.2 ⟨List.idxOf?_eq_none_iff.1 alone, ih (Option.map_eq_none_iff.1 h)⟩

theorem Merges.nodup (h : Merges states merged) : merged.Nodup := by
  induction h with
  | done h => exact nodup_of_firstTwins? h
  | round _ _ ih => exact ih

/-- Merging twins keeps the accepted words. -/
theorem accepts_simplify : Accepts (simplify states) w ↔ Accepts states w :=
  (merges_simplify states).accepts

/-! ## The states of an automaton -/

/-- There is a state for every closed set, and each arc leads to the state of a closed set. -/
theorem inRange_ofNfa (wf : nfa.WellFormed) : InRange (ofNfa nfa) := by
  obtain ⟨all, -, -, stands⟩ := ofNfa_stands wf
  intro state hstate arc harc
  obtain ⟨set, -, arcs, -⟩ := forall₂_of_mem stands hstate
  obtain ⟨move, -, -, target⟩ := forall₂_of_mem arcs harc
  rw [← stands.length_eq]
  exact (List.getElem?_eq_some_iff.1 target).1

/-- For every automaton with silent steps, closing sets of its states, following the sets found and
merging twins all come to an end. In the states that are left every arc leads to one of them, no two
are the same, and from the first on they accept just the words that lead through the automaton from
its start to its finish. -/
theorem simplify_ofNfa (nfa : Nfa) (wf : nfa.WellFormed) :
    (∀ states, nfa.Closes states (nfa.closure states)) ∧
      Explores nfa [nfa.closure [nfa.start]] 0 (ofNfa nfa) ∧
      Merges (ofNfa nfa) (simplify (ofNfa nfa)) ∧
      InRange (simplify (ofNfa nfa)) ∧ (simplify (ofNfa nfa)).Nodup ∧
      ∀ w, Accepts (simplify (ofNfa nfa)) w ↔ nfa.Accepts w := by
  have merges := merges_simplify (ofNfa nfa)
  refine ⟨nfa.closes_closure, explores_ofNfa wf, merges, merges.inRange (inRange_ofNfa wf),
    merges.nodup, fun w => ?_⟩
  exact merges.accepts.trans (accepts_ofNfa wf)

/-- Two states in a circle of silent steps, and two labels that lead out of it and back. -/
def circle : Nfa :=
  ⟨4, [⟨0, none, 1⟩, ⟨1, none, 0⟩, ⟨0, some ['a'], 2⟩, ⟨1, some ['b'], 3⟩, ⟨2, none, 0⟩,
    ⟨3, none, 1⟩], 0, 1⟩

/-- Round the circle both letters can be read in either order. -/
theorem simplify_ofNfa_circle : circle.WellFormed ∧ InRange (simplify (ofNfa circle)) ∧
    (simplify (ofNfa circle)).Nodup ∧ Accepts (simplify (ofNfa circle)) [['b'], ['a']] := by
  have wf : circle.WellFormed := by
    unfold Nfa.WellFormed
    decide
  obtain ⟨-, -, -, inside, nodup, words⟩ := simplify_ofNfa circle wf
  have back : circle.Leads 1 [['a']] 1 :=
    .silent (t := 0) (by decide) (.step (t := 2) (by decide)
      (.silent (t := 0) (by decide) (.silent (t := 1) (by decide) (.refl 1))))
  have word : circle.Accepts [['b'], ['a']] :=
    .silent (t := 1) (by decide) (.step (t := 3) (by decide) (.silent (by decide) back))
  exact ⟨wf, inside, nodup, (words _).2 word⟩

end Caret.Dfa

import Caret.Proofs.Derivations
/-!
# When one token of foresight is enough

The parser takes the first arc that fits and closes a rule only if no arc does. It is never wrong if
the arcs out of a state take different terminals, and if no terminal that an arc of an accepting
state takes can come behind the rule (`Predictive`). Then a word that the open frames stand for is
read to its end.

Results:
* `derives_cons`: the first label of a word decides the first arc.
* `follows_of_awaits`: what the frames below can start with may come behind the innermost rule.
* `Runs.predicted`: a token is shifted if its label is the first of an awaited word.
* `fed_language`: tokens whose labels are a word of the language are shifted, up to the end.
-/
namespace Caret

namespace Grammar

variable {g : Grammar} {r sub : RuleTable} {s l : Nat} {a b : Arc} {w : List Nat}
  {follow : RuleTable → Nat → Prop}

/-- One token of foresight is enough. `follow` holds of a rule and the labels that may come behind
it. -/
structure Predictive (g : Grammar) (follow : RuleTable → Nat → Prop) : Prop where
  /-- No rule stands for the empty word. -/
  nonempty : ∀ {r : RuleTable}, r ∈ g.rules → r.accepts 0 = false
  /-- No two arcs out of a state take the same terminal. -/
  disjoint : ∀ {r : RuleTable} {s l : Nat} {a b : Arc}, r ∈ g.rules → a ∈ r.arcs s → b ∈ r.arcs s →
    g.isTerminal l = true → g.Takes a l → g.Takes b l → a = b
  /-- What may come behind a rule does not let it go on. -/
  ending : ∀ {r : RuleTable} {s l : Nat} {a : Arc}, r ∈ g.rules → r.accepts s = true →
    a ∈ r.arcs s → g.isTerminal l = true → g.Takes a l → ¬ follow r l
  /-- What the next arc takes may come behind the rule on an arc. -/
  next : ∀ {r sub : RuleTable} {s l : Nat} {a b : Arc}, r ∈ g.rules → a ∈ r.arcs s →
    g.Enters a sub → b ∈ r.arcs a.target → g.isTerminal l = true → g.Takes b l → follow sub l
  /-- Behind the last rule of a rule may come what may come behind that rule. -/
  last : ∀ {r sub : RuleTable} {s l : Nat} {a : Arc}, r ∈ g.rules → a ∈ r.arcs s →
    g.Enters a sub → r.accepts a.target = true → follow r l → follow sub l

/-- Only a state of the start rule where nothing can follow ends the source, and no rule inside
leads to it. -/
structure EndsOnce (g : Grammar) : Prop where
  only : ∀ {start : RuleTable} {s : Nat}, g.start? = some start → start.accepts s = true →
    start.acceptsOnly s = true
  inner : ∀ {start sub : RuleTable} {s : Nat} {a : Arc}, g.start? = some start →
    a ∈ start.arcs s → g.Enters a sub → start.accepts a.target = false

theorem Enters.unique {sub' : RuleTable} (h : g.Enters a sub) (h' : g.Enters a sub') :
    sub = sub' := by
  obtain ⟨j, hj, hs⟩ := h
  obtain ⟨j', hj', hs'⟩ := h'
  rw [hj] at hj'
  cases hj'
  rw [hs] at hs'
  cases hs'
  rfl

/-- Only an accepting state stands for the empty word. -/
theorem derives_nil (ll : g.Predictive follow) (h : g.Derives r s []) : r.accepts s = true := by
  generalize hw : ([] : List Nat) = w at h
  induction h with
  | finish h => exact h
  | terminal => cases hw
  | nested ha hl hs _ _ ih =>
    -- the inner rule would stand for the empty word
    rename_i v w _ _
    obtain ⟨rfl, -⟩ := List.append_eq_nil_iff.1 hw.symm
    have := ll.nonempty (Array.mem_of_getElem? hs)
    rw [ih rfl] at this
    cases this

/-- The first label of a word is taken by the first arc. -/
theorem derives_takes (ok : g.Consistent) (ll : g.Predictive follow)
    (h : g.Derives r s (l :: w)) : g.isTerminal l = true ∧ ∃ a ∈ r.arcs s, g.Takes a l := by
  generalize hw : l :: w = w' at h
  induction h generalizing w with
  | finish => cases hw
  | terminal ha hl => cases hw; exact ⟨hl, _, ha, .inl rfl⟩
  | nested ha hl hs inner _ ih =>
    rename_i v w _ _
    cases v with
    | nil =>
      have := ll.nonempty (Array.mem_of_getElem? hs)
      rw [derives_nil ll inner] at this
      cases this
    | cons l' v =>
      cases hw
      obtain ⟨hl', hb⟩ := ih rfl
      have first := (ok.mem_first (Array.mem_of_getElem? hs)).2 ⟨hl', hb⟩
      exact ⟨hl', _, ha, .inr ⟨_, ⟨_, hl, hs⟩, first⟩⟩

/-- The first label of a word decides the first arc: it carries the label, or a rule that the word
starts with. -/
theorem derives_cons (ok : g.Consistent) (ll : g.Predictive follow)
    (h : g.Derives r s (l :: w)) : ∃ a ∈ r.arcs s, g.Takes a l ∧
      ((a.label = l ∧ g.Derives r a.target w) ∨ ∃ sub v w', g.Enters a sub ∧ w = v ++ w' ∧
        g.Derives sub 0 (l :: v) ∧ g.Derives r a.target w') := by
  generalize hw : l :: w = w' at h
  cases h with
  | finish => cases hw
  | terminal ha hl h => cases hw; exact ⟨_, ha, .inl rfl, .inl ⟨rfl, h⟩⟩
  | nested ha hl hs inner outer =>
    rename_i sub i a v w'
    cases v with
    | nil =>
      have := ll.nonempty (Array.mem_of_getElem? hs)
      rw [derives_nil ll inner] at this
      cases this
    | cons l' v =>
      cases hw
      have first := (ok.mem_first (Array.mem_of_getElem? hs)).2 (derives_takes ok ll inner)
      have enters : g.Enters a sub := ⟨i, hl, hs⟩
      exact ⟨a, ha, .inr ⟨sub, enters, first⟩, .inr ⟨sub, v, w', enters, rfl, inner, outer⟩⟩

/-- A state where nothing can follow stands for the empty word only. -/
theorem derives_acceptsOnly (ok : g.Consistent) (h : r.acceptsOnly s = true)
    (h' : g.Derives r s w) : w = [] := by
  rw [RuleTable.acceptsOnly, beq_iff_eq] at h
  have empty {a : Arc} (ha : a ∈ r.arcs s) : g.label? a.label = some .empty := by
    rw [h, List.mem_singleton] at ha
    rw [ha]
    exact ok.empty
  cases h' with
  | finish => rfl
  | terminal ha hl => rw [isTerminal, empty ha] at hl; cases hl
  | nested ha hl => rw [empty ha] at hl; cases hl

end Grammar

namespace Parser

variable {g : Grammar} {label : Nat} {t : Token} {p q : Parser} {top : Frame} {rest : List Frame}
  {rule sub : RuleTable} {state state' l : Nat} {a : Arc} {below : List (RuleTable × Nat)}
  {w : List Nat} {follow : RuleTable → Nat → Prop}

/-! ## How frames hang together -/

/-- Every frame stands on one that waits behind an arc labelled with its rule; the outermost frame
is the start rule's. -/
inductive Linked (g : Grammar) : List (RuleTable × Nat) → Prop
  | nil : Linked g []
  | start {rule : RuleTable} {state : Nat} (h : g.start? = some rule) : Linked g [(rule, state)]
  | cons {sub rule : RuleTable} {state state' from_ : Nat} {a : Arc}
      {below : List (RuleTable × Nat)} (ha : a ∈ rule.arcs from_) (hsub : g.Enters a sub)
      (ht : a.target = state) (h : Linked g ((rule, state) :: below)) :
      Linked g ((sub, state') :: (rule, state) :: below)

theorem Linked.tail {f : RuleTable × Nat} (h : Linked g (f :: below)) : Linked g below := by
  cases h with
  | start => exact .nil
  | cons _ _ _ h => exact h

theorem Linked.move (h : Linked g ((rule, state) :: below)) :
    Linked g ((rule, state') :: below) := by
  cases h with
  | start h => exact .start h
  | cons ha hsub ht h => exact .cons ha hsub ht h

theorem Linked.popCompleted {n : Nat} (h : Linked g p.spine) :
    Linked g (popCompleted n p).spine := by
  refine popCompleted_keeps (P := fun q => Linked g q.spine) (fun hs _ h => ?_) h
  rw [spine_pop]
  rw [spine_eq hs] at h ⊢
  exact h.tail

/-- The first label of a word that a spine stands for is read by the innermost frame, or that frame
may end and the label is read below. -/
theorem awaits_cons (h : Awaits g ((rule, state) :: below) (l :: w))
    (ll : g.Predictive follow) :
    (∃ v w', w = v ++ w' ∧ g.Derives rule state (l :: v) ∧ Awaits g below w') ∨
      (rule.accepts state = true ∧ Awaits g below (l :: w)) := by
  generalize hw : l :: w = w' at h
  cases h with
  | @cons _ _ _ v w' hv hw' =>
    cases v with
    | nil =>
      rw [List.nil_append] at hw
      subst hw
      exact .inr ⟨Grammar.derives_nil ll hv, hw'⟩
    | cons l' v =>
      cases hw
      exact .inl ⟨v, w', rfl, hv, hw'⟩

/-- What the frames below can start with may come behind the innermost rule. -/
theorem follows_of_awaits (ok : g.Consistent) (ll : g.Predictive follow)
    (known : ∀ f ∈ below, f.1 ∈ g.rules) (linked : Linked g ((rule, state) :: below))
    (h : Awaits g below (l :: w)) : follow rule l := by
  induction below generalizing rule state with
  | nil => cases h
  | cons f below ih =>
    obtain ⟨r, s⟩ := f
    have hr : r ∈ g.rules := known (r, s) List.mem_cons_self
    cases linked with
    | cons ha hsub ht linked =>
      rcases awaits_cons h ll with ⟨v, w', -, hv, -⟩ | ⟨accepts, hw⟩
      · obtain ⟨hl, b, hb, takes⟩ := Grammar.derives_takes ok ll hv
        rw [← ht] at hb
        exact ll.next hr ha hsub hb hl takes
      · have := ih (fun f hf => known f (List.mem_cons_of_mem _ hf)) linked hw
        rw [← ht] at accepts
        exact ll.last hr ha hsub accepts this

/-- If an arc of the innermost frame takes the first label of an awaited word, the word goes on in
this frame. -/
theorem derives_of_takes (ok : g.Consistent) (ll : g.Predictive follow)
    (known : ∀ f ∈ (rule, state) :: below, f.1 ∈ g.rules)
    (linked : Linked g ((rule, state) :: below)) (hl : g.isTerminal l = true)
    (ha : a ∈ rule.arcs state) (takes : g.Takes a l)
    (h : Awaits g ((rule, state) :: below) (l :: w)) :
    (a.label = l ∧ Awaits g ((rule, a.target) :: below) w) ∨
      ∃ sub, g.Enters a sub ∧ Awaits g ((sub, 0) :: (rule, a.target) :: below) (l :: w) := by
  have hr : rule ∈ g.rules := known (rule, state) List.mem_cons_self
  rcases awaits_cons h ll with ⟨v, w', rfl, hv, hw⟩ | ⟨accepts, hw⟩
  · obtain ⟨b, hb, takes', reads⟩ := Grammar.derives_cons ok ll hv
    have := ll.disjoint hr ha hb hl takes takes'
    subst this
    rcases reads with ⟨hlabel, hv⟩ | ⟨sub, v₁, v₂, hsub, rfl, inner, outer⟩
    · exact .inl ⟨hlabel, .cons hv hw⟩
    · refine .inr ⟨sub, hsub, ?_⟩
      rw [List.append_assoc, ← List.cons_append]
      exact .cons inner (.cons outer hw)
  · have := follows_of_awaits ok ll (fun f hf => known f (List.mem_cons_of_mem _ hf)) linked hw
    exact absurd this (ll.ending hr accepts ha hl takes)

/-- If no arc of the innermost frame takes the first label of an awaited word, the frame may end and
the word is awaited below. -/
theorem awaits_of_not_takes (ok : g.Consistent) (ll : g.Predictive follow)
    (none : ∀ a ∈ rule.arcs state, ¬ g.Takes a l)
    (h : Awaits g ((rule, state) :: below) (l :: w)) :
    rule.accepts state = true ∧ Awaits g below (l :: w) := by
  rcases awaits_cons h ll with ⟨v, w', rfl, hv, hw⟩ | h
  · obtain ⟨-, a, ha, takes⟩ := Grammar.derives_takes ok ll hv
    exact absurd takes (none a ha)
  · exact h

/-! ## Awaited words are read -/

/-- Closing complete frames keeps the words that are awaited. -/
theorem Awaits.after_popCompleted (ok : g.Consistent) {n : Nat} (h : Awaits g p.spine w) :
    Awaits g (Parser.popCompleted n p).spine w := by
  refine popCompleted_keeps (P := fun q => Awaits g q.spine w) (fun hs only h => ?_) h
  rw [spine_pop]
  rw [spine_eq hs] at h ⊢
  cases h with
  | cons hv hw =>
    rw [Grammar.derives_acceptsOnly ok only hv]
    exact hw

/-- A token is shifted if its label is the first of an awaited word, and the rest of the word is
awaited then. -/
theorem Runs.predicted {r : Outcome × Parser} (ok : g.Consistent) (ll : g.Predictive follow)
    (h : Runs g label t p r) (known : Known g p) (linked : Linked g p.spine)
    (hl : g.isTerminal label = true) (hw : Awaits g p.spine (label :: w)) :
    (∃ done, r.1 = .shifted done) ∧ Awaits g r.2.spine w ∧ Linked g r.2.spine := by
  induction h with
  | complete h =>
    rw [spine, h] at hw
    cases hw
  | shift h hm =>
    obtain ⟨a, ha, hlabel, rfl⟩ := move?_shift hm
    unfold Known at known
    rw [spine_eq h] at known linked hw
    refine ⟨⟨_, rfl⟩, ?_, ?_⟩
    · refine Awaits.after_popCompleted ok ?_
      rw [spine_addLeaf, spine_moveTo h]
      rcases derives_of_takes ok ll known linked hl ha (.inl hlabel) hw with
        ⟨-, hw⟩ | ⟨sub, hsub, -⟩
      · exact hw
      · rw [← hlabel, hsub.not_terminal] at hl; cases hl
    · refine Linked.popCompleted ?_
      rw [spine_addLeaf, spine_moveTo h]
      exact linked.move
  | enter h hm _ ih =>
    obtain ⟨a, ha, enters, first, rfl⟩ := move?_enter hm
    refine ih (known.push h enters.mem) ?_ ?_ <;>
      (unfold Known at known; rw [spine_eq h] at known linked hw)
    · rw [spine_push h]
      exact .cons ha enters rfl linked.move
    · rw [spine_push h]
      rcases derives_of_takes ok ll known linked hl ha (.inr ⟨_, enters, first⟩) hw with
        ⟨hlabel, -⟩ | ⟨sub, hsub, hw⟩
      · rw [← hlabel, enters.not_terminal] at hl; cases hl
      · rw [enters.unique hsub]
        exact hw
  | last h hm =>
    rw [spine_eq h] at hw
    have := (awaits_of_not_takes ok ll (move?_none.1 hm) hw).2
    cases this
  | close h _ hm _ _ ih =>
    refine ih known.pop ?_ ?_ <;> (rw [spine_pop]; rw [spine_eq h] at linked hw ⊢)
    · exact linked.tail
    · exact (awaits_of_not_takes ok ll (move?_none.1 hm) hw).2
  | stuck h hm hacc =>
    rw [spine_eq h] at hw
    have := (awaits_of_not_takes ok ll (move?_none.1 hm) hw).1
    rw [hacc] at this
    cases this

/-- If all open frames may end, only the start rule is open. -/
theorem Linked.single (ll : g.Predictive follow) (ends : g.EndsOnce)
    {stack : List (RuleTable × Nat)} (h : Linked g stack) (hw : Awaits g stack [])
    (hne : stack ≠ []) :
    ∃ start state, stack = [(start, state)] ∧ g.start? = some start ∧
      start.accepts state = true := by
  generalize hv : ([] : List Nat) = v at hw
  induction h generalizing v with
  | nil => exact absurd rfl hne
  | start h =>
    cases hw with
    | cons hd =>
      obtain ⟨rfl, -⟩ := List.append_eq_nil_iff.1 hv.symm
      exact ⟨_, _, rfl, h, Grammar.derives_nil ll hd⟩
  | cons ha hsub ht _ ih =>
    cases hw with
    | cons _ hw =>
      obtain ⟨-, rfl⟩ := List.append_eq_nil_iff.1 hv.symm
      obtain ⟨start, state, heq, hstart, accepts⟩ := ih (List.cons_ne_nil _ _) _ rfl hw
      cases heq
      -- no rule inside the start rule leads to a state where the source may end
      have := ends.inner hstart ha hsub
      rw [ht, accepts] at this
      cases this

theorem feed_shifted {done : Bool} (kept : p.omitted = []) (unfinished : p.stack ≠ [])
    (h : shift g t (p.count t.kind) = (.shifted done, q)) : feed g t p = (.ok done, q) := by
  have none : p.closesOmitted t.kind = false := by simp [closesOmitted, kept]
  have open_ : ¬ (p.count t.kind).isDone = true := by rwa [isDone_iff, stack_count]
  rw [feed, if_neg (by rw [none]; simp), offer, if_neg open_, h]

/-- A token whose label is the first of an awaited word is fed without recovery, and the rest of the
word is awaited then; the start rule is complete if nothing is left of the word. -/
theorem feed_awaited (ok : g.Consistent) (ll : g.Predictive follow) (ends : g.EndsOnce)
    (known : Known g p) (linked : Linked g p.spine) (kept : p.omitted = [])
    (ht : classify g t = some label) (hw : Awaits g p.spine (label :: w)) :
    ¬ Recovers g t p ∧ (feed g t p).1 = .ok w.isEmpty ∧ (feed g t p).2.omitted = [] ∧
      Awaits g (feed g t p).2.spine w ∧ Linked g (feed g t p).2.spine := by
  have unfinished : p.stack ≠ [] := by
    intro empty
    rw [spine, empty] at hw
    cases hw
  have runs : Runs g label t (p.count t.kind) (shift g t (p.count t.kind)) :=
    runs_shift ok known.count ht
  generalize hr : shift g t (p.count t.kind) = r at runs
  obtain ⟨⟨done, hdone⟩, awaits, linked'⟩ :=
    runs.predicted ok ll known.count (by rwa [spine_count]) (classify_terminal ht)
      (by rwa [spine_count])
  obtain ⟨outcome, q⟩ := r
  cases hdone
  have fed := feed_shifted kept unfinished hr
  rw [fed]
  refine ⟨?_, ?_, ?_, awaits, linked'⟩
  · rintro ⟨-, -, stuck⟩
    rw [hr] at stuck
    cases stuck
  · show Except.ok done = Except.ok w.isEmpty
    rw [runs.done_eq rfl]
    congr 1
    rw [Bool.eq_iff_iff, isDone_iff, List.isEmpty_iff]
    constructor
    · intro empty
      rw [spine, empty] at awaits
      cases awaits
      rfl
    · rintro rfl
      by_contra hne
      -- all frames may end, so the start rule alone is open, in a state that is closed at once
      obtain ⟨top, rest, hs⟩ := List.exists_cons_of_ne_nil hne
      have hspine : q.spine ≠ [] := by rw [spine_eq hs]; exact List.cons_ne_nil _ _
      obtain ⟨start, state, single, hstart, accepts⟩ := linked'.single ll ends awaits hspine
      rw [spine_eq hs] at single
      obtain ⟨rfl, rfl⟩ := Prod.mk.inj (List.cons.inj single).1
      have := runs.settled rfl hs
      rw [ends.only hstart accepts] at this
      cases this
  · simpa [kept] using runs.omitted

/-- Tokens whose labels are an awaited word are fed without recovery, and the last of them is the
one that completes the start rule. -/
theorem feed_word (ok : g.Consistent) (ll : g.Predictive follow) (ends : g.EndsOnce)
    (known : Known g p) (linked : Linked g p.spine) (kept : p.omitted = []) {tokens : List Token}
    (ht : tokens.map (classify g) = w.map some) (hw : Awaits g p.spine w)
    {before after : List Token} (h : tokens = before ++ t :: after) :
    ¬ Recovers g t (feedFrom g p before) ∧
      (feed g t (feedFrom g p before)).1 = .ok after.isEmpty := by
  subst h
  induction before generalizing p w with
  | nil =>
    obtain ⟨label, w, rfl⟩ : ∃ label v, w = label :: v := by
      cases w with
      | nil => cases ht
      | cons label v => exact ⟨label, v, rfl⟩
    obtain ⟨hlabel, hrest⟩ := List.cons.inj ht
    obtain ⟨clean, hfeed, -⟩ := feed_awaited ok ll ends known linked kept hlabel hw
    refine ⟨clean, hfeed.trans ?_⟩
    have := congrArg List.isEmpty hrest
    rw [List.isEmpty_map, List.isEmpty_map] at this
    rw [this]
  | cons u before ih =>
    obtain ⟨label, w, rfl⟩ : ∃ label v, w = label :: v := by
      cases w with
      | nil => cases ht
      | cons label v => exact ⟨label, v, rfl⟩
    obtain ⟨hlabel, hrest⟩ := List.cons.inj ht
    obtain ⟨-, -, kept', hw', linked'⟩ := feed_awaited ok ll ends known linked kept hlabel hw
    exact ih (known.feed ok) linked' kept' hw' hrest

/-- Tokens whose labels are a word of the language are fed to a new parser without recovery, and the
last of them is the one that completes the start rule. -/
theorem fed_language (ok : g.Consistent) (ll : g.Predictive follow) (ends : g.EndsOnce)
    {tokens : List Token} (ht : tokens.map (classify g) = w.map some) (hw : g.Language w)
    {before after : List Token} (h : tokens = before ++ t :: after) :
    ¬ Recovers g t (fed g before) ∧ (feed g t (fed g before)).1 = .ok after.isEmpty := by
  obtain ⟨start, hs⟩ := ok.start
  have linked : Linked g (new g).spine := by
    rw [spine_eq (new_stack hs)]
    exact .start hs
  exact feed_word ok ll ends (known_new g) linked rfl ht ((awaits_new hs).2 hw) h

end Parser

end Caret

import Caret.Proofs.Growth
/-!
# The tree of a derivation

A rule that reads tokens from a state on has children then: the leaf of a token where an arc carries
its label, the closed frame of a rule where an arc enters it (`Yields`). If one token of foresight
is enough, the first token decides the arc and the token behind the last one decides where the rule
ends, so tokens are read in one way at most. What the parser makes of tokens that start no recovery
is such a reading. So to find the tree of a source it is enough to read its tokens in any way.

Results:
* `Yields`: tokens that a rule reads from a state on, and the children that they become.
* `Yields.unique`: there is one way only to read tokens up to what may come behind the rule.
* `Built.yields`: children that the parser has built are a reading.
* `Module.parse_yields`: a source whose tokens are read has the tree of this reading.
-/
namespace Caret

/-- The tree of a closed frame does not depend on the state. -/
theorem Frame.close_state (r : RuleTable) (s s' : Nat) (children : List Tree) :
    Frame.close ⟨r, s, children⟩ = Frame.close ⟨r, s', children⟩ := rfl

namespace Parser

variable {g : Grammar} {r sub : RuleTable} {s s' i j : Nat} {a : Arc} {t : Token}
  {T ts ts' more more' : List Token} {us us' children : List Tree}
  {follow : RuleTable → Nat → Prop}

/-- From a state on the rule reads these tokens up to its end, and these are its children. -/
inductive Yields (g : Grammar) : RuleTable → Nat → List Token → List Tree → Prop
  | finish {r : RuleTable} {s : Nat} (h : r.accepts s = true) : Yields g r s [] []
  | leaf {r : RuleTable} {s : Nat} {a : Arc} {t : Token} {ts : List Token} {us : List Tree}
      (ha : a ∈ r.arcs s) (class_ : classify g t = some a.label)
      (rest : Yields g r a.target ts us) :
      Yields g r s (t :: ts) (.leaf (leafOf g a.label t) :: us)
  | node {r sub : RuleTable} {s : Nat} {a : Arc} {ts ts' : List Token} {us us' : List Tree}
      (ha : a ∈ r.arcs s) (enters : g.Enters a sub) (inner : Yields g sub 0 ts us)
      (rest : Yields g r a.target ts' us') :
      Yields g r s (ts ++ ts') (Frame.close ⟨sub, 0, us⟩ :: us')

/-- The labels of the tokens are a word that the rule stands for. -/
theorem Yields.derives (h : Yields g r s ts us) :
    ∃ w, ts.map (classify g) = w.map some ∧ g.Derives r s w := by
  induction h with
  | finish h => exact ⟨[], rfl, .finish h⟩
  | leaf ha class_ _ ih =>
    obtain ⟨w, labels, derives⟩ := ih
    exact ⟨_ :: w, by simp [class_, labels], .terminal ha (classify_terminal class_) derives⟩
  | node ha enters _ _ ih ih' =>
    obtain ⟨v, labels, inner⟩ := ih
    obtain ⟨w, labels', outer⟩ := ih'
    obtain ⟨j, hj, hs⟩ := enters
    exact ⟨v ++ w, by simp [labels, labels'], .nested ha hj hs inner outer⟩

/-- The leaves of the children are those of the tokens. -/
theorem Yields.leaves (h : Yields g r s ts us) :
    us.flatMap Tree.leaves = ts.map (tokenLeaf g) := by
  induction h with
  | finish => rfl
  | leaf ha class_ _ ih => simp [ih, tokenLeaf, class_]
  | node ha enters _ _ ih ih' => simp [ih, ih', Frame.leaves]

/-! ## One way to read -/

section Predictive

variable (ok : g.Consistent) (ll : g.Predictive follow)
include ok ll

/-- Some arc takes the first token. -/
theorem Yields.takes (h : Yields g r s (t :: ts) us) : ∃ l, classify g t = some l ∧
    g.isTerminal l = true ∧ ∃ a ∈ r.arcs s, g.Takes a l := by
  obtain ⟨w, labels, derives⟩ := h.derives
  cases w with
  | nil => cases labels
  | cons l w =>
    obtain ⟨class_, -⟩ := List.cons.inj labels
    exact ⟨l, class_, Grammar.derives_takes ok ll derives⟩

/-- An arc that enters a rule takes the first token that is read there. -/
theorem Yields.takes_entry (enters : g.Enters a sub) (h : Yields g sub 0 (t :: ts) us) :
    ∃ l, classify g t = some l ∧ g.isTerminal l = true ∧ g.Takes a l := by
  obtain ⟨l, class_, terminal, b, hb, takes⟩ := h.takes ok ll
  have first := (ok.mem_first enters.mem).2 ⟨terminal, b, hb, takes⟩
  exact ⟨l, class_, terminal, .inr ⟨sub, enters, first⟩⟩

omit ok in
/-- A rule reads a token at least. -/
theorem Yields.ne_nil (known : r ∈ g.rules) (h : Yields g r 0 ts us) : ts ≠ [] := by
  rintro rfl
  obtain ⟨w, labels, derives⟩ := h.derives
  obtain rfl : w = [] := List.map_eq_nil_iff.1 labels.symm
  have accepts := Grammar.derives_nil ll derives
  rw [ll.nonempty known] at accepts
  cases accepts

omit ok in
/-- Without tokens there are no children. -/
theorem Yields.of_nil (h : Yields g r s [] us) : r.accepts s = true ∧ us = [] := by
  generalize none : ([] : List Token) = ts at h
  cases h with
  | finish h => exact ⟨h, rfl⟩
  | leaf => cases none
  | node _ enters inner =>
    obtain ⟨rfl, -⟩ := List.append_eq_nil_iff.1 none.symm
    exact absurd rfl (inner.ne_nil ll enters.mem)

/-- The first token is a leaf, or the first one of a rule that is entered. -/
theorem Yields.cons_cases (h : Yields g r s (t :: ts) us) :
    ∃ a ∈ r.arcs s, ∃ l, classify g t = some l ∧ g.isTerminal l = true ∧ g.Takes a l ∧
      ((a.label = l ∧ ∃ us', us = .leaf (leafOf g l t) :: us' ∧ Yields g r a.target ts us') ∨
        ∃ sub v w children us', g.Enters a sub ∧ t :: ts = v ++ w ∧ Yields g sub 0 v children ∧
          us = Frame.close ⟨sub, 0, children⟩ :: us' ∧ Yields g r a.target w us') := by
  generalize whole : t :: ts = all at h
  cases h with
  | finish => cases whole
  | leaf ha class_ rest =>
    obtain ⟨rfl, rfl⟩ := List.cons.inj whole
    exact ⟨_, ha, _, class_, classify_terminal class_, .inl rfl, .inl ⟨rfl, _, rfl, rest⟩⟩
  | @node _ sub _ a v w children us' ha enters inner rest =>
    obtain ⟨u, v', rfl⟩ := List.exists_cons_of_ne_nil (inner.ne_nil ll enters.mem)
    obtain ⟨rfl, -⟩ := List.cons.inj whole
    obtain ⟨l, class_, terminal, takes⟩ := inner.takes_entry ok ll enters
    exact ⟨a, ha, l, class_, terminal, takes,
      .inr ⟨sub, _, w, children, us', enters, rfl, inner, rfl, rest⟩⟩

/-- The first of these tokens, if there is one, may come behind the rule. -/
def Behind (g : Grammar) (follow : RuleTable → Nat → Prop) (r : RuleTable)
    (more : List Token) : Prop :=
  ∀ t ∈ more.head?, ∀ l, classify g t = some l → follow r l

/-- What may come behind a rule is not read by it. -/
theorem Yields.not_behind (known : r ∈ g.rules) (accepts : r.accepts s = true)
    (h : Yields g r s (t :: ts) us) (behind : Behind g follow r (t :: more)) : False := by
  obtain ⟨l, class_, terminal, a, ha, takes⟩ := h.takes ok ll
  exact ll.ending known accepts ha terminal takes (behind t rfl l class_)

/-- What is read behind an entered rule may come behind it. -/
theorem Yields.behind (known : r ∈ g.rules) (ha : a ∈ r.arcs s) (enters : g.Enters a sub)
    (rest : Yields g r a.target ts us) (behind : Behind g follow r more) :
    Behind g follow sub (ts ++ more) := by
  intro t first l class_
  cases ts with
  | nil => exact ll.last known ha enters (rest.of_nil ll).1 (behind t first l class_)
  | cons u ts =>
    cases first
    obtain ⟨l', class_', terminal, b, hb, takes⟩ := rest.takes ok ll
    rw [class_] at class_'
    cases class_'
    exact ll.next known ha enters hb terminal takes

/-- Tokens are read in one way only, up to what may come behind the rule. -/
theorem Yields.unique (known : r ∈ g.rules) (h : Yields g r s ts us)
    (h' : Yields g r s ts' us') (same : ts ++ more = ts' ++ more')
    (behind : Behind g follow r more) (behind' : Behind g follow r more') :
    ts = ts' ∧ us = us' := by
  induction h generalizing ts' us' more more' with
  | finish accepts =>
    cases ts' with
    | nil => exact ⟨rfl, (h'.of_nil ll).2.symm⟩
    | cons t ts' =>
      rw [List.nil_append] at same
      rw [same] at behind
      exact (h'.not_behind ok ll known accepts behind).elim
  | @leaf r s a t ts us ha class_ rest ih =>
    cases ts' with
    | nil =>
      rw [List.nil_append] at same
      rw [← same] at behind'
      exact ((Yields.leaf ha class_ rest).not_behind ok ll known (h'.of_nil ll).1 behind').elim
    | cons t' ts' =>
      obtain ⟨rfl, same'⟩ := List.cons.inj same
      obtain ⟨b, hb, l, class_', terminal, takes, shifted | entered⟩ := h'.cons_cases ok ll
      all_goals
        rw [class_] at class_'
        cases class_'
        obtain rfl : a = b := ll.disjoint known ha hb terminal (.inl rfl) takes
      · obtain ⟨-, us', rfl, rest'⟩ := shifted
        obtain ⟨rfl, rfl⟩ := ih known rest' same' behind behind'
        exact ⟨rfl, rfl⟩
      · obtain ⟨sub, -, -, -, -, enters, -⟩ := entered
        rw [enters.not_terminal] at terminal
        cases terminal
  | @node r sub s a v w children us ha enters inner rest ih ih' =>
    obtain ⟨t, v', rfl⟩ := List.exists_cons_of_ne_nil (inner.ne_nil ll enters.mem)
    cases ts' with
    | nil =>
      rw [List.nil_append] at same
      rw [← same] at behind'
      exact ((Yields.node ha enters inner rest).not_behind ok ll known (h'.of_nil ll).1
        behind').elim
    | cons t' ts' =>
      obtain ⟨rfl, -⟩ := List.cons.inj same
      obtain ⟨l, class_, terminal, takes⟩ := inner.takes_entry ok ll enters
      obtain ⟨b, hb, l', class_', -, takes', shifted | entered⟩ := h'.cons_cases ok ll
      all_goals
        rw [class_] at class_'
        cases class_'
        obtain rfl : a = b := ll.disjoint known ha hb terminal takes takes'
      · obtain ⟨label, -⟩ := shifted
        rw [← label, enters.not_terminal] at terminal
        cases terminal
      · obtain ⟨sub', x, y, children', us', enters', split, inner', rfl, rest'⟩ := entered
        obtain rfl := enters.unique enters'
        -- the same rule is entered, it reads the same tokens, and so does what is behind it
        rw [split, List.append_assoc, List.append_assoc] at same
        obtain ⟨rfl, rfl⟩ := ih enters.mem inner' same
          (rest.behind ok ll known ha enters behind) (rest'.behind ok ll known ha enters behind')
        obtain ⟨rfl, rfl⟩ := ih' known rest' (List.append_cancel_left same) behind behind'
        exact ⟨split.symm, rfl⟩

end Predictive

/-! ## The parser's reading -/

/-- Children that the parser has built, and what is read from there on, are a reading. -/
theorem Built.yields (h : Built g T r s i j children) (rest : Yields g r s ts us) :
    Yields g r 0 ((T.take j).drop i ++ ts) (children ++ us) := by
  induction h generalizing ts us with
  | start r k => simpa using rest
  | @leaf r s i j children a t h ha token class_ ih =>
    have here : (T.take (j + 1)).drop j = [t] := by
      rw [slice_cons token (Nat.lt_succ_self j)]
      simp
    have more := ih (.leaf ha class_ rest)
    rw [slice_append h.leaves.1 (Nat.le_succ j), here]
    simpa using more
  | @node r sub s s' i j k children us' a below h ha enters passes inner ends ih ih' =>
    have read := ih' (.finish ends)
    rw [List.append_nil, List.append_nil] at read
    have more := ih (.node ha enters read rest)
    rw [slice_append h.leaves.1 inner.leaves.1, Frame.close_state sub s' 0]
    simpa using more

end Parser

namespace Module

open Caret.Parser

variable {g : Grammar} {start : RuleTable} {children : List Tree} {source : Text}
  {follow : RuleTable → Nat → Prop}

/-- If the start rule reads the tokens of a source, the tree of the source is that of the
reading. -/
theorem parse_yields (ok : g.Consistent) (lay : g.Layered) (closed : g.Sealed)
    (ll : g.Predictive follow) (ends : g.EndsOnce) (hs : g.start? = some start)
    (h : Yields g start 0 (tokenize (completed source)) children) :
    ∃ m, parse g source = .ok m ∧ m.root = Frame.close ⟨start, 0, children⟩ := by
  obtain ⟨body, last, tokens, marker, inner⟩ := tokenize_eq (completed source)
  obtain ⟨w, labels, derives⟩ := h.derives
  rw [tokens] at h labels
  have clean : Clean g (Parser.new g) (body ++ [last]) := by
    intro before t after split
    exact (fed_language ok ll ends labels ⟨start, hs, derives⟩ split).1
  obtain ⟨start', s, built, hs', grown, accepts, empty, root⟩ :=
    clean_built ok lay closed inner marker clean
  rw [hs] at hs'
  cases hs'
  -- the parser's own reading is this one
  have own := grown.yields (.finish accepts)
  rw [List.take_length, List.drop_zero, List.append_nil, List.append_nil] at own
  have none : Behind g follow start [] := by
    intro t ht
    cases ht
  obtain ⟨-, rfl⟩ := own.unique ok ll (Array.mem_of_getElem? hs) h rfl none none
  refine ⟨_, parse_eq ok lay source, ?_⟩
  rw [tokens, finish, empty, List.length_nil, closeAll, root]
  rfl

end Module

end Caret

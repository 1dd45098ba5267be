import Caret.Proofs.Answers
import Caret.Proofs.Faults
import Mathlib.Data.List.Chain
/-!
# Rules that recovery does not stop in

Recovery stops at the source, a block or a simple statement, and nowhere inside a small statement.
So whatever was set aside before, the children of a frame of such a rule take it from its first
state to the present one: they are leaves of tokens and closed frames of rules that were entered.
The same holds of the branches of the tree, and of what recovery sets aside itself, where the
innermost rule could still go on and each other one has entered the next.

Results:
* `Traced`: children that take a rule from its first state to another.
* `Tree.Regular`: a tree whose branches of these rules are traced to a state where the rule may end.
* `Unfinished`: the frames of a statement that was set aside.
* `Traces`: what holds of the open frames, and is kept by entering, closing and shifting.
* `Module.parse_regular`: the tree and the broken statements of a source.
-/
namespace Caret

/-- Recovery stops at none of these rules, and they enter only each other. -/
structure Grammar.Secluded (g : Grammar) (rules : List String) : Prop where
  closed : ∀ {r sub : RuleTable} {s : Nat} {a : Arc}, r ∈ g.rules → r.name ∈ rules →
    a ∈ r.arcs s → g.Enters a sub → sub.name ∈ rules
  outside : ∀ name ∈ ["file_input", "suite", "simple_stmt", Tree.errorNode], name ∉ rules

namespace Parser

variable {g : Grammar} {T : List Token} {rules : List String} {label target : Nat} {t : Token}
  {p q : Parser} {top f : Frame} {rest stack : List Frame} {r sub : RuleTable} {s : Nat} {a : Arc}
  {us : List Tree}

/-! ## Children of a rule -/

/-- The leaf is that of one of the tokens, read with this label. -/
def Labels (g : Grammar) (T : List Token) (label : Nat) (l : Leaf) : Prop :=
  ∃ t ∈ T, classify g t = some label ∧ l = leafOf g label t

/-- The children take the rule from its first state to this one. Each is the leaf of a token, or the
closed frame of a rule that was entered. -/
inductive Traced (g : Grammar) (T : List Token) : RuleTable → Nat → List Tree → Prop
  | start (r : RuleTable) : Traced g T r 0 []
  | leaf {r : RuleTable} {s : Nat} {us : List Tree} {a : Arc} {l : Leaf} (h : Traced g T r s us)
      (ha : a ∈ r.arcs s) (label : Labels g T a.label l) :
      Traced g T r a.target (us ++ [.leaf l])
  | node {r sub : RuleTable} {s s' : Nat} {us vs : List Tree} {a : Arc} (h : Traced g T r s us)
      (ha : a ∈ r.arcs s) (enters : g.Enters a sub) (inner : Traced g T sub s' vs)
      (ends : sub.accepts s' = true) :
      Traced g T r a.target (us ++ [Frame.close ⟨sub, s', vs⟩])

end Parser

/-- The leaves are those of tokens, error leaves included, and a branch of one of the rules has
children that take the rule to a state where it may end. -/
inductive Tree.Regular (g : Grammar) (T : List Token) (rules : List String) : Tree → Prop
  | leaf {label : Nat} {l : Leaf} (h : Parser.Labels g T label l) : Regular g T rules (.leaf l)
  | error {t : Token} (h : t ∈ T) : Regular g T rules (.leaf (Parser.errorLeaf t))
  | branch {rule : String} {children : List Tree}
      (traced : rule ∈ rules → ∃ r s, r ∈ g.rules ∧ r.name = rule ∧
        Parser.Traced g T r s children ∧ r.accepts s = true ∧
        (∀ only, children = [only] → rule ∈ Frame.keepsSingleChild))
      (h : ∀ c ∈ children, Regular g T rules c) : Regular g T rules (.branch rule children)

namespace Parser

variable {g : Grammar} {T : List Token} {rules : List String} {label target : Nat} {t : Token}
  {p q : Parser} {top f : Frame} {rest stack : List Frame} {r sub : RuleTable} {s : Nat} {a : Arc}
  {us : List Tree}

/-- The children of the frame take its rule to its present state, if it is one of the rules. -/
def Settled (g : Grammar) (T : List Token) (rules : List String) (f : Frame) : Prop :=
  f.rule.name ∈ rules → Traced g T f.rule f.state f.children

/-- The frame has entered the rule of the frame above it, and is in the state behind that rule. -/
def Waits (g : Grammar) (T : List Token) (rules : List String) (above f : Frame) : Prop :=
  f.rule.name ∈ rules → ∃ s a, Traced g T f.rule s f.children ∧ a ∈ f.rule.arcs s ∧
    g.Enters a above.rule ∧ a.target = f.state

/-- A frame closed where its rule may end is regular. -/
theorem Settled.close (h : Settled g T rules f) (known : f.rule ∈ g.rules)
    (ends : f.rule.name ∈ rules → f.rule.accepts f.state = true)
    (trees : ∀ c ∈ f.children, c.Regular g T rules) : f.close.Regular g T rules := by
  rcases f.close_cases with ⟨only, single, -, closed⟩ | ⟨closed, kept⟩ <;> rw [closed]
  · exact trees only (by rw [single]; exact List.mem_singleton_self _)
  · refine .branch (fun inside => ⟨f.rule, f.state, known, rfl, h inside, ends inside, ?_⟩) trees
    exact fun only single => kept (by rw [single]; rfl)

/-! ## One token -/

/-- The frame on top is traced and each other one waits for the frame above it; all children and the
tree, if there is one, are regular. -/
structure Traces (g : Grammar) (T : List Token) (rules : List String) (p : Parser) : Prop where
  known : Known g p
  top : ∀ f ∈ p.stack.head?, Settled g T rules f
  chain : p.stack.IsChain (Waits g T rules)
  trees : ∀ f ∈ p.stack, ∀ c ∈ f.children, c.Regular g T rules
  root : ∀ t, p.root = some t → t.Regular g T rules

/-- The innermost frame may move and get children: no other frame looks at them. -/
theorem chain_head {u : Frame} (h : (top :: rest).IsChain (Waits g T rules))
    (same : u.rule = top.rule) : (u :: rest).IsChain (Waits g T rules) := by
  rw [List.isChain_cons] at h ⊢
  refine ⟨fun f hf inside => ?_, h.2⟩
  rw [same]
  exact h.1 f hf inside

theorem Traces.shift (h : Traces g T rules p) (hs : p.stack = top :: rest) (ha : a ∈ top.arcs)
    (token : t ∈ T) (class_ : classify g t = some a.label) :
    Traces g T rules ((p.moveTo a.target).addLeaf (leafOf g a.label t)) := by
  have leaf : Labels g T a.label (leafOf g a.label t) := ⟨t, token, class_, rfl⟩
  have moved : (p.moveTo a.target).stack = _ := moveTo_stack hs
  obtain ⟨root, stack⟩ := addLeaf_open (l := leafOf g a.label t) moved
  have same : (p.moveTo a.target).root = p.root := by rw [Parser.moveTo, hs]
  have settled : Settled g T rules top := h.top top (by rw [hs]; rfl)
  have chain := h.chain
  rw [hs] at chain
  refine ⟨fun f hf => h.known.moveTo hs f (by rwa [spine_addLeaf] at hf), ?_, ?_, ?_, ?_⟩
  · rw [stack]
    intro f hf inside
    cases hf
    exact .leaf (settled inside) ha leaf
  · rw [stack]
    exact chain_head chain rfl
  · rw [stack]
    intro f hf c hc
    rcases List.mem_cons.1 hf with rfl | hf
    · rcases List.mem_append.1 hc with hc | hc
      · exact h.trees top (by rw [hs]; exact List.mem_cons_self) c hc
      · rw [List.mem_singleton.1 hc]
        exact .leaf leaf
    · exact h.trees f (by rw [hs]; exact List.mem_cons_of_mem _ hf) c hc
  · rw [root, same]
    exact h.root

theorem Traces.push (h : Traces g T rules p) (hs : p.stack = top :: rest) (ha : a ∈ top.arcs)
    (enters : g.Enters a sub) : Traces g T rules (p.push sub a.target) := by
  have settled : Settled g T rules top := h.top top (by rw [hs]; rfl)
  have chain := h.chain
  have trees := h.trees
  rw [hs] at chain trees
  refine ⟨h.known.push hs enters.mem, ?_, ?_, ?_, ?_⟩
  · rw [push_stack hs]
    intro f hf _
    cases hf
    exact .start sub
  · rw [push_stack hs, List.isChain_cons_cons]
    exact ⟨fun inside => ⟨_, a, settled inside, ha, enters, rfl⟩, chain_head chain rfl⟩
  · rw [push_stack hs]
    intro f hf c hc
    rcases List.mem_cons.1 hf with rfl | hf
    · exact absurd hc List.not_mem_nil
    · rcases List.mem_cons.1 hf with rfl | hf
      · exact trees top List.mem_cons_self c hc
      · exact trees f (List.mem_cons_of_mem _ hf) c hc
  · rw [Parser.push, Parser.moveTo, hs]
    exact h.root

/-- Closing the innermost frame where its rule may end. -/
theorem Traces.pop (sec : g.Secluded rules) (h : Traces g T rules p) (hs : p.stack = top :: rest)
    (ends : top.rule.name ∈ rules → top.rule.accepts top.state = true) :
    Traces g T rules p.pop := by
  have settled : Settled g T rules top := h.top top (by rw [hs]; rfl)
  have chain := h.chain
  have trees := h.trees
  rw [hs] at chain trees
  have closed : top.close.Regular g T rules :=
    settled.close (h.known.innermost hs) ends (trees top List.mem_cons_self)
  cases rest with
  | nil =>
    obtain ⟨stack, root⟩ := pop_outermost hs
    refine ⟨h.known.pop, ?_, ?_, ?_, fun t ht => ?_⟩
    · rw [stack]; simp
    · rw [stack]; exact .nil
    · rw [stack]; simp
    · rw [root] at ht
      cases ht
      exact closed
  | cons lower below =>
    obtain ⟨stack, root⟩ := pop_inner hs
    rw [List.isChain_cons_cons] at chain
    refine ⟨h.known.pop, ?_, ?_, ?_, by rw [root]; exact h.root⟩
    · rw [stack]
      intro f hf inside
      cases hf
      obtain ⟨s, a, traced, ha, enters, state⟩ := chain.1 inside
      have lowerKnown : lower.rule ∈ g.rules :=
        h.known (lower.rule, lower.state) (by simp [spine, spineOf, hs])
      have topInside : top.rule.name ∈ rules := sec.closed lowerKnown inside ha enters
      have node := Traced.node traced ha enters (settled topInside) (ends topInside)
      rw [state] at node
      exact node
    · rw [stack]
      exact chain_head chain.2 rfl
    · rw [stack]
      intro f hf c hc
      rcases List.mem_cons.1 hf with rfl | hf
      · rcases List.mem_append.1 hc with hc | hc
        · exact trees lower (by simp) c hc
        · rwa [List.mem_singleton.1 hc]
      · exact trees f (by simp [hf]) c hc

theorem Traces.popCompleted {n : Nat} (sec : g.Secluded rules) (h : Traces g T rules p) :
    Traces g T rules (popCompleted n p) :=
  popCompleted_keeps (P := Traces g T rules)
    (fun hs only h => h.pop sec hs fun _ => accepts_of_acceptsOnly only) h

/-- One token keeps the frames traced. Where it leaves a frame open, the rule of that frame can
still go on. -/
theorem Runs.traces {x : Outcome × Parser} (sec : g.Secluded rules) (runs : Runs g label t p x)
    (token : t ∈ T) (class_ : classify g t = some label) (h : Traces g T rules p) :
    Traces g T rules x.2 ∧
      ∀ f ∈ x.2.stack.head?, f.rule.acceptsOnly f.state = false := by
  induction runs with
  | complete empty => exact ⟨h, by simp [empty]⟩
  | shift hs hm =>
    obtain ⟨a, ha, rfl, rfl⟩ := move?_shift hm
    refine ⟨(h.shift hs ha token class_).popCompleted sec, fun f hf => ?_⟩
    obtain ⟨rest, stack⟩ := List.head?_eq_some_iff.1 hf
    exact popCompleted_settled (Nat.le_refl _) stack
  | enter hs hm _ ih =>
    obtain ⟨a, ha, enters, -, rfl⟩ := move?_enter hm
    exact ih (h.push hs ha enters)
  | last hs _ ends =>
    refine ⟨h.pop sec hs fun _ => ends, ?_⟩
    have empty : (Parser.pop _).stack = [] := List.length_eq_zero_iff.1 (pop_stack_length hs)
    simp [empty]
  | close hs _ _ ends _ ih => exact ih (h.pop sec hs fun _ => ends)
  | @stuck p top rest hs _ refuses =>
    refine ⟨h, fun f hf => ?_⟩
    rw [hs] at hf
    cases hf
    cases only : top.rule.acceptsOnly top.state with
    | false => rfl
    | true => rw [accepts_of_acceptsOnly only] at refuses; cases refuses

/-! ## Recovery -/

/-- The frames of a statement that was set aside, outermost first: each rule but the innermost has
entered the next, and the innermost can still go on. -/
inductive Unfinished (g : Grammar) (T : List Token) : RuleTable → List (String × List Tree) → Prop
  | last {r : RuleTable} {s : Nat} {us : List Tree} (known : r ∈ g.rules) (h : Traced g T r s us)
      (goesOn : r.acceptsOnly s = false) : Unfinished g T r [(r.name, us)]
  | enter {r sub : RuleTable} {s : Nat} {us : List Tree} {a : Arc}
      {frames : List (String × List Tree)} (known : r ∈ g.rules) (h : Traced g T r s us)
      (ha : a ∈ r.arcs s) (enters : g.Enters a sub) (next : Unfinished g T sub frames) :
      Unfinished g T r ((r.name, us) :: frames)

/-- Frames below one that is none of the rules are none of them either. -/
theorem outside_below (sec : g.Secluded rules) {below : List Frame}
    (known : ∀ f ∈ below, f.rule ∈ g.rules) (chain : (f :: below).IsChain (Waits g T rules))
    (outside : f.rule.name ∉ rules) : ∀ u ∈ below, u.rule.name ∉ rules := by
  induction below generalizing f with
  | nil => simp
  | cons lower below ih =>
    rw [List.isChain_cons_cons] at chain
    have next : lower.rule.name ∉ rules := by
      intro inside
      obtain ⟨s, a, -, ha, enters, -⟩ := chain.1 inside
      exact outside (sec.closed (known lower List.mem_cons_self) inside ha enters)
    intro u hu
    rcases List.mem_cons.1 hu with rfl | hu
    · exact next
    · exact ih (fun f hf => known f (List.mem_cons_of_mem _ hf)) chain.2 next u hu

/-- Frames above one of the rules are of such rules, too. -/
theorem inside_above (sec : g.Secluded rules) {above : List Frame}
    (known : ∀ u ∈ above ++ [f], u.rule ∈ g.rules)
    (chain : (above ++ [f]).IsChain (Waits g T rules)) (inside : f.rule.name ∈ rules) :
    ∀ u ∈ above, u.rule.name ∈ rules := by
  induction above with
  | nil => simp
  | cons u above ih =>
    rw [List.cons_append, List.isChain_cons] at chain
    have inner := ih (fun v hv => known v (List.mem_cons_of_mem _ hv)) chain.2
    obtain ⟨lower, rest, hl⟩ := List.exists_cons_of_ne_nil (show above ++ [f] ≠ [] by simp)
    have mem : lower ∈ above ++ [f] := by rw [hl]; exact List.mem_cons_self
    have insideLower : lower.rule.name ∈ rules := by
      rcases List.mem_append.1 mem with hu | hu
      · exact inner lower hu
      · rwa [List.mem_singleton.1 hu]
    obtain ⟨s, a, -, ha, enters, -⟩ := chain.1 lower (by rw [hl]; rfl) insideLower
    have insideTop := sec.closed (known lower (List.mem_cons_of_mem _ mem)) insideLower ha enters
    intro v hv
    rcases List.mem_cons.1 hv with rfl | hv
    · exact insideTop
    · exact inner v hv

/-- Frames of other rules wait for nothing. -/
theorem chain_append {above below : List Frame} (chain : above.IsChain (Waits g T rules))
    (outside : ∀ f ∈ below, f.rule.name ∉ rules) :
    (above ++ below).IsChain (Waits g T rules) := by
  have waits {u f : Frame} (hf : f ∈ below) : Waits g T rules u f :=
    fun inside => absurd inside (outside f hf)
  have lower : below.IsChain (Waits g T rules) := by
    clear chain
    induction below with
    | nil => exact .nil
    | cons f below ih =>
      rw [List.isChain_cons]
      exact ⟨fun u hu => waits (List.mem_cons_of_mem _ (List.mem_of_mem_head? hu)),
        ih (fun u hu => outside u (List.mem_cons_of_mem _ hu))
          fun hu => waits (List.mem_cons_of_mem _ hu)⟩
  exact List.isChain_append.2 ⟨chain, lower, fun _ _ f hf => waits (List.mem_of_mem_head? hf)⟩

/-- Seen from the frame of an unfinished statement, the frames below make it longer. -/
theorem Unfinished.outward {below : List Frame} {frames : List (String × List Tree)}
    (known : ∀ u ∈ below, u.rule ∈ g.rules) (inside : ∀ u ∈ below, u.rule.name ∈ rules)
    (chain : (f :: below).IsChain (Waits g T rules)) (h : Unfinished g T f.rule frames) :
    ∀ last ∈ (f :: below).getLast?,
      Unfinished g T last.rule (below.reverse.map record ++ frames) := by
  induction below generalizing f frames with
  | nil =>
    intro last hl
    cases hl
    exact h
  | cons lower below ih =>
    rw [List.isChain_cons_cons] at chain
    obtain ⟨s, a, traced, ha, enters, -⟩ := chain.1 (inside lower List.mem_cons_self)
    have longer := Unfinished.enter (known lower List.mem_cons_self) traced ha enters h
    intro last hl
    rw [List.getLast?_cons_cons] at hl
    have := ih (fun u hu => known u (List.mem_cons_of_mem _ hu))
      (fun u hu => inside u (List.mem_cons_of_mem _ hu)) chain.2 longer last hl
    rwa [List.reverse_cons, List.map_append, List.append_assoc]

/-- A stack of frames that wait for each other, with a frame on top that can go on, makes an
unfinished statement, if the outermost frame is of one of the rules. -/
theorem unfinished_of_chain (sec : g.Secluded rules) {stack : List Frame}
    (known : ∀ u ∈ stack, u.rule ∈ g.rules) (chain : stack.IsChain (Waits g T rules))
    (top : ∀ f ∈ stack.head?, f.rule.name ∈ rules →
      Traced g T f.rule f.state f.children ∧ f.rule.acceptsOnly f.state = false) :
    ∀ last ∈ stack.getLast?, last.rule.name ∈ rules →
      Unfinished g T last.rule (stack.reverse.map record) := by
  intro last hl inside
  obtain ⟨above, rfl⟩ := List.getLast?_eq_some_iff.1 hl
  have all : ∀ u ∈ above ++ [last], u.rule.name ∈ rules := by
    intro u hu
    rcases List.mem_append.1 hu with hu | hu
    · exact inside_above sec known chain inside u hu
    · rwa [List.mem_singleton.1 hu]
  obtain ⟨f, below, hs⟩ := List.exists_cons_of_ne_nil (show above ++ [last] ≠ [] by simp)
  rw [hs] at hl known chain top all ⊢
  obtain ⟨traced, goesOn⟩ := top f rfl (all f List.mem_cons_self)
  have innermost := Unfinished.last (known f List.mem_cons_self) traced goesOn
  have := innermost.outward (fun u hu => known u (List.mem_cons_of_mem _ hu))
    (fun u hu => all u (List.mem_cons_of_mem _ hu)) chain last hl
  rwa [List.reverse_cons, List.map_append]

/-- Folding takes off what is above the container, and more. -/
theorem Cut.fold_above (c : Cut) : c.above <+: c.fold.above := by
  have folds := c.foldsTo_fold
  generalize c.fold = d at folds ⊢
  cases folds <;> simp

/-- Recovery stops at none of the rules, and what it takes off besides the frames above is of none
of them. -/
theorem Traces.cut (sec : g.Secluded rules) (lay : g.Layered) (h : Traces g T rules p)
    (orderly : Orderly g p.stack) {c : Cut} (hc : cut? [] p.stack = some c) :
    ∃ extra, c.fold.above = c.above ++ extra ∧
      (∀ f ∈ extra, f.rule.name ∉ rules) ∧
      ∀ f ∈ c.fold.container :: c.fold.below, f.rule.name ∉ rules := by
  have whole : p.stack = c.stack := (cut?_stack hc).symm
  have knownStack : ∀ f ∈ p.stack, f.rule ∈ g.rules := fun f hf =>
    h.known (f.rule, f.state) (List.mem_map_of_mem hf)
  have chain := h.chain
  rw [whole] at chain knownStack orderly
  have container : c.container.rule.name ∉ rules := by
    rcases cut?_container hc with (name | ⟨name | name, -⟩) | bottom
    · exact sec.outside _ (by simp [name])
    · exact sec.outside _ (by simp [name])
    · exact sec.outside _ (by simp [name])
    · obtain ⟨f, last, start, -⟩ := orderly.outermost
      rw [Cut.stack, bottom, List.getLast?_concat, Option.some.injEq] at last
      subst last
      exact sec.outside _ (by simp [lay.name start])
  have lower : ∀ f ∈ c.container :: c.below, f.rule.name ∉ rules := by
    intro f hf
    rcases List.mem_cons.1 hf with rfl | hf
    · exact container
    · exact outside_below sec (fun u hu => knownStack u (by simp [Cut.stack, hu]))
        (List.isChain_append.1 chain).2.1 container f hf
  obtain ⟨extra, longer⟩ := c.fold_above
  -- folding keeps the rules of all frames
  have same : spineOf (extra ++ c.fold.container :: c.fold.below) =
      spineOf (c.container :: c.below) := by
    have spine := c.fold_spine
    simp only [Cut.stack, ← longer, List.append_assoc, spineOf, List.map_append] at spine ⊢
    exact List.append_cancel_left spine
  have outside : ∀ f ∈ extra ++ c.fold.container :: c.fold.below, f.rule.name ∉ rules := by
    intro f hf
    have mem : (f.rule, f.state) ∈ spineOf (c.container :: c.below) := by
      rw [← same]
      exact List.mem_map_of_mem hf
    obtain ⟨u, hu, eq⟩ := List.mem_map.1 mem
    rw [← (Prod.mk.inj eq).1]
    exact lower u hu
  exact ⟨extra, longer.symm, fun f hf => outside f (List.mem_append_left _ hf),
    fun f hf => outside f (List.mem_append_right _ hf)⟩

end Parser

/-- The leaves of what was set aside. -/
def BrokenStatement.leaves (s : BrokenStatement) : List Leaf :=
  (s.frames.flatMap (·.2)).flatMap Tree.leaves

/-- If the outermost frame of the statement is of one of the rules, the frames are those of an
unfinished statement. -/
def BrokenStatement.Regular (g : Grammar) (T : List Token) (rules : List String)
    (s : BrokenStatement) : Prop :=
  s.title ∈ rules → ∃ r ∈ g.rules, r.name = s.title ∧ Parser.Unfinished g T r s.frames

namespace Parser

variable {g : Grammar} {T : List Token} {rules : List String} {label target : Nat} {t : Token}
  {p q : Parser} {top f : Frame} {rest stack : List Frame} {r sub : RuleTable} {s : Nat} {a : Arc}
  {us : List Tree}

/-- The frame on top can go on, if it is of one of the rules. -/
def GoesOn (rules : List String) (stack : List Frame) : Prop :=
  ∀ f ∈ stack.head?, f.rule.name ∈ rules → f.rule.acceptsOnly f.state = false

/-- What recovery takes off is an unfinished statement. -/
theorem Traces.removed (sec : g.Secluded rules) (lay : g.Layered) (h : Traces g T rules p)
    (goesOn : GoesOn rules p.stack) (orderly : Orderly g p.stack) {c : Cut}
    (hc : cut? [] p.stack = some c) :
    ∀ last ∈ c.fold.removed.head?, last.rule.name ∈ rules →
      Unfinished g T last.rule (c.fold.removed.map record) := by
  obtain ⟨extra, above, outside, -⟩ := h.cut sec lay orderly hc
  have whole : p.stack = c.above ++ c.container :: c.below := (cut?_stack hc).symm
  have chain := h.chain
  rw [whole] at chain
  have longer : c.fold.above.IsChain (Waits g T rules) := by
    rw [above]
    exact chain_append (List.isChain_append.1 chain).1 outside
  -- what is dropped as empty stands at the outer end
  have part : c.fold.removed.reverse <+: c.fold.above := by
    rw [← List.reverse_suffix, List.reverse_reverse]
    exact List.dropWhile_suffix _
  have knownFold : ∀ f ∈ c.fold.above, f.rule ∈ g.rules := by
    intro f hf
    have mem : (f.rule, f.state) ∈ spineOf c.stack := by
      rw [← c.fold_spine]
      exact List.mem_map_of_mem (List.mem_append_left _ hf)
    rw [cut?_stack hc] at mem
    exact h.known _ mem
  have chained : c.fold.removed.reverse.IsChain (Waits g T rules) := by
    obtain ⟨more, hm⟩ := part
    rw [← hm] at longer
    exact longer.left_of_append
  have result := unfinished_of_chain sec (fun u hu => knownFold u (part.subset hu)) chained
    (fun f hf inside => ?_)
  · rwa [List.getLast?_reverse, List.reverse_reverse] at result
  · -- the innermost frame taken off is the innermost frame, or was folded and is none of the rules
    have head : f ∈ c.fold.above.head? := by
      obtain ⟨more, hm⟩ := part
      rw [← hm]
      cases hr : c.fold.removed.reverse with
      | nil => rw [hr] at hf; cases hf
      | cons u us => rw [hr] at hf; exact hf
    cases habove : c.above with
    | nil =>
      rw [above, habove, List.nil_append] at head
      exact absurd inside (outside f (List.mem_of_mem_head? head))
    | cons u us =>
      rw [above, habove] at head
      have onTop : f ∈ p.stack.head? := by rw [whole, habove]; exact head
      exact ⟨h.top f onTop inside, goesOn f onTop inside⟩

/-- Where no frame is of the rules, regular children are all that is asked. -/
theorem Traces.of_outside (known : Known g q) (outside : ∀ f ∈ q.stack, f.rule.name ∉ rules)
    (trees : ∀ f ∈ q.stack, ∀ c ∈ f.children, c.Regular g T rules)
    (root : ∀ t, q.root = some t → t.Regular g T rules) : Traces g T rules q :=
  ⟨known, fun f hf inside => absurd inside (outside f (List.mem_of_mem_head? hf)),
    chain_append .nil outside, trees, root⟩

/-- Recovery keeps the frames traced, and leaves none of the rules open. -/
theorem Traces.recover {again : Bool} (sec : g.Secluded rules) (lay : g.Layered)
    (ready : Ready g p) (token : t ∈ T) (h : Traces g T rules p)
    (hr : recover t p = (again, q)) :
    Traces g T rules q ∧ ∀ f ∈ q.stack, f.rule.name ∉ rules := by
  obtain ⟨c, hc, recovers⟩ := recover_cases ready.orderly.ne_nil hr
  obtain ⟨-, -, -, outside⟩ := h.cut sec lay ready.orderly hc
  have simple : "simple_stmt" ∉ rules := sec.outside _ (by simp)
  have error : Tree.errorNode ∉ rules := sec.outside _ (by simp)
  have held : ∀ f ∈ c.stack, ∀ t ∈ f.children, t.Regular g T rules := by
    rw [cut?_stack hc]
    exact h.trees
  have trees := c.fold_children held fun name =>
    .branch (fun inside => absurd (name ▸ inside) simple) (held c.container (by simp [Cut.stack]))
  have known : Known g q := ready.known.recover hr
  have root : ∀ t, q.root = some t → t.Regular g T rules := recovers.root_eq ▸ h.root
  -- what is added to the container
  have added {tree : Tree} (regular : tree.Regular g T rules)
      (stack : q.stack = c.fold.container.add tree :: c.fold.below) :
      Traces g T rules q ∧ ∀ f ∈ q.stack, f.rule.name ∉ rules := by
    have out : ∀ f ∈ q.stack, f.rule.name ∉ rules := by
      rw [stack]
      intro f hf
      rcases List.mem_cons.1 hf with rfl | hf
      · exact outside c.fold.container List.mem_cons_self
      · exact outside f (List.mem_cons_of_mem _ hf)
    refine ⟨.of_outside known out ?_ root, out⟩
    rw [stack]
    intro f hf c' hc'
    rcases List.mem_cons.1 hf with rfl | hf
    · rcases List.mem_append.1 hc' with hc' | hc'
      · exact trees _ (by simp [Cut.stack]) c' hc'
      · rwa [List.mem_singleton.1 hc']
    · exact trees f (by simp [Cut.stack, hf]) c' hc'
  cases recovers with
  | dropped =>
    refine ⟨.of_outside known outside ?_ root, outside⟩
    exact fun f hf => trees f (by rw [Cut.stack]; exact List.mem_append_right _ hf)
  | misplaced => exact added (.error token) rfl
  | removed =>
    refine added (.branch (fun inside => absurd inside error) fun tree ht => ?_) rfl
    obtain ⟨f, hf, ht⟩ := List.mem_flatMap.1 ht
    have above : f ∈ c.fold.above := List.mem_reverse.1 ((List.dropWhile_sublist _).subset hf)
    exact trees f (by simp [Cut.stack, above]) tree ht

/-! ## Feeding tokens -/

/-- A state that tokens can be fed to, with traced frames. -/
structure Tracing (g : Grammar) (T : List Token) (rules : List String) (p : Parser) : Prop where
  ready : Ready g p
  traces : Traces g T rules p
  goesOn : GoesOn rules p.stack
  /-- What was set aside is unfinished, and its leaves are leaves of the tree, in order. -/
  broken : ∀ s ∈ p.broken, s.Regular g T rules ∧ s.leaves.Sublist p.leaves

theorem tracing_new (ok : g.Consistent) (lay : g.Layered) (sec : g.Secluded rules) :
    Tracing g T rules (new g) := by
  obtain ⟨start, hs⟩ := ok.start
  have outside : start.name ∉ rules := sec.outside _ (by simp [lay.name hs])
  have stack := new_stack hs
  refine ⟨(ready_new ok).1, ⟨known_new g, ?_, ?_, ?_, fun t ht => ?_⟩, ?_, fun s hs => ?_⟩
  · rw [stack]
    intro f hf inside
    cases hf
    exact absurd inside outside
  · rw [stack]
    exact .singleton _
  · rw [stack]
    intro f hf c hc
    rw [List.mem_singleton.1 hf] at hc
    exact absurd hc List.not_mem_nil
  · cases ht
  · rw [stack]
    intro f hf inside
    cases hf
    exact absurd inside outside
  · cases hs

theorem Tracing.stuck (ok : g.Consistent) (lay : g.Layered) (sec : g.Secluded rules)
    (token : t ∈ T) (h : Tracing g T rules p) (hs : Parser.shift g t p = (.stuck, q)) :
    Tracing g T rules q := by
  obtain ⟨ready, leaves, -⟩ := h.ready.stuck ok lay hs
  have broken := shift_broken ok h.ready.known hs
  have set : ∀ s ∈ q.broken, s.Regular g T rules ∧ s.leaves.Sublist q.leaves := by
    rw [broken, leaves]
    exact h.broken
  rcases shift_cases ok h.ready.known hs with ⟨-, -, rfl⟩ | ⟨label, class_, runs⟩
  · exact h
  · obtain ⟨traces, goesOn⟩ := runs.traces sec token class_ h.traces
    exact ⟨ready, traces, fun f hf _ => goesOn f hf, set⟩

/-- The leaves of the frames that recovery takes off are leaves of the parser. -/
theorem Ready.leaves_above (ready : Ready g p) {c : Cut} (hc : cut? [] p.stack = some c) :
    (leavesIn c.fold.above).Sublist p.leaves := by
  obtain ⟨top, rest, hs⟩ := List.exists_cons_of_ne_nil ready.orderly.ne_nil
  have all : p.leaves = leavesIn (c.fold.container :: c.fold.below) ++ leavesIn c.fold.above := by
    rw [Parser.leaves, ready.whole.root hs]
    dsimp only
    rw [← leavesIn_append, ← Cut.stack, Cut.leaves_fold (ready.orderly.alone hc), cut?_stack hc]
    rfl
  rw [all]
  exact List.sublist_append_right _ _

theorem Tracing.recover {again : Bool} (sec : g.Secluded rules) (lay : g.Layered) (token : t ∈ T)
    (h : Tracing g T rules p) (hr : recover t p = (again, q)) :
    Tracing g T rules q ∧ ∀ f ∈ q.stack, f.rule.name ∉ rules := by
  obtain ⟨traces, outside⟩ := h.traces.recover sec lay h.ready token hr
  obtain ⟨ready, cases⟩ := h.ready.recover lay hr
  obtain ⟨c, hc, recovers⟩ := recover_cases h.ready.orderly.ne_nil hr
  refine ⟨⟨ready, traces, fun f hf inside => absurd inside (outside f (List.mem_of_mem_head? hf)),
    ?_⟩, outside⟩
  have longer : p.leaves.Sublist q.leaves := by
    rcases cases with ⟨-, same, -⟩ | ⟨-, -, same, -⟩ | ⟨-, -, more, -⟩
    · exact same ▸ .refl _
    · exact same ▸ .refl _
    · exact more ▸ List.sublist_append_left _ _
  have old : ∀ s ∈ p.broken, s.Regular g T rules ∧ s.leaves.Sublist q.leaves :=
    fun s hs => ⟨(h.broken s hs).1, (h.broken s hs).2.trans longer⟩
  cases recovers with
  | dropped => exact old
  | misplaced => exact old
  | removed some =>
    intro s hs
    rcases List.mem_append.1 hs with hs | hs
    · exact old s hs
    · rw [List.mem_singleton.1 hs]
      refine ⟨fun inside => ?_, .trans ?_ longer⟩
      · obtain ⟨last, others, hl⟩ := List.exists_cons_of_ne_nil some
        have title : (setAside t c.fold.removed).title = last.rule.name := by
          rw [BrokenStatement.title, setAside, hl]
          rfl
        have unfinished :=
          h.traces.removed sec lay h.goesOn h.ready.orderly hc last (by rw [hl]; rfl)
          (title ▸ inside)
        have known : last.rule ∈ g.rules := by
          cases hl' : c.fold.removed.map record with
          | nil => rw [hl] at hl'; cases hl'
          | cons => rw [hl'] at unfinished; cases unfinished <;> assumption
        exact ⟨last.rule, known, title.symm, unfinished⟩
      · have set : (setAside t c.fold.removed).leaves = leavesIn c.fold.above := by
          rw [BrokenStatement.leaves, setAside, List.flatMap_map, ← c.fold.leaves_removed]
          rfl
        rw [set]
        exact h.ready.leaves_above hc

/-- Feeding a token keeps the frames traced. -/
theorem Tracing.feed (ok : g.Consistent) (lay : g.Layered) (sec : g.Secluded rules)
    (token : t ∈ T) (h : Tracing g T rules p) :
    Traces g T rules (feed g t p).2 ∧ GoesOn rules (feed g t p).2.stack ∧
      ∀ s ∈ (feed g t p).2.broken, s.Regular g T rules ∧
        s.leaves.Sublist (feed g t p).2.leaves := by
  rcases feed_cases ok h.ready.known (t := t) with ⟨-, hf⟩ | ⟨-, offers⟩
  · rw [hf]
    exact ⟨⟨h.ready.known, h.traces.top, h.traces.chain, h.traces.trees, h.traces.root⟩, h.goesOn,
      h.broken⟩
  have counted : Tracing g T rules (p.count t.kind) := by
    refine ⟨h.ready.count t.kind, ⟨h.ready.known.count, ?_, ?_, ?_, ?_⟩, ?_, ?_⟩
    · rw [stack_count]; exact h.traces.top
    · rw [stack_count]; exact h.traces.chain
    · rw [stack_count]; exact h.traces.trees
    · rw [root_count]; exact h.traces.root
    · rw [stack_count]; exact h.goesOn
    · rw [broken_count, leaves_count]; exact h.broken
  rcases offers.fate (P := Tracing g T rules) ok lay counted.ready
    (fun h hs => h.stuck ok lay sec token hs) (fun h hr => (h.recover sec lay token hr).1) counted
    with ⟨q, label, done, -, tracing, -, -, class_, runs, -⟩ | ⟨-, -, tracing, -⟩
  · obtain ⟨traces, goesOn⟩ := runs.traces sec token class_ tracing.traces
    obtain ⟨-, more, -⟩ := runs.leaves_eq tracing.ready.whole
    refine ⟨traces, fun f hf _ => goesOn f hf, fun s hs => ?_⟩
    rw [runs.broken_eq] at hs
    obtain ⟨regular, part⟩ := tracing.broken s hs
    exact ⟨regular, part.trans (by rw [more ⟨_, rfl⟩]; exact List.sublist_append_left _ _)⟩
  · exact ⟨tracing.traces, tracing.goesOn, tracing.broken⟩

theorem Tracing.feedFrom (ok : g.Consistent) (lay : g.Layered) (sec : g.Secluded rules)
    {tokens : List Token} (known : ∀ t ∈ tokens, t ∈ T)
    (inner : ∀ t ∈ tokens, t.kind ≠ .endMarker) (h : Tracing g T rules p) :
    Tracing g T rules (feedFrom g p tokens) := by
  induction tokens generalizing p with
  | nil => exact h
  | cons t tokens ih =>
    obtain ⟨-, goesOn, -⟩ := feed_lossless (t := t) ok lay h.ready
    obtain ⟨traces, top, broken⟩ := h.feed ok lay sec (known t List.mem_cons_self)
    exact ih (fun u hu => known u (List.mem_cons_of_mem _ hu))
      (fun u hu => inner u (List.mem_cons_of_mem _ hu))
      ⟨(goesOn (inner t List.mem_cons_self)).2, traces, top, broken⟩

/-! ## The end of a source -/

/-- The end marker closes everything, or recovery comes before it; either way no frame of the rules
is left open. -/
theorem Offers.outside {x : Except ParseError Bool × Parser} (ok : g.Consistent)
    (lay : g.Layered) (closed : g.Sealed) (sec : g.Secluded rules) (token : t ∈ T)
    (marker : t.kind = .endMarker) (offers : Offers g t p x) (linked : Linked g p.spine)
    (h : Tracing g T rules p) : ∀ f ∈ x.2.stack, f.rule.name ∉ rules := by
  induction offers with
  | complete empty => simp [empty]
  | @shifted p q done open_ hs =>
    obtain ⟨label, class_, runs⟩ := shift_runs ok h.ready.known hs (by simp)
    have label : g.label? label = some (.token .endMarker) :=
      marker ▸ classify_token class_ (by simp [marker])
    have done := runs.sealed closed h.ready.known linked label rfl
    rw [runs.done_eq rfl, isDone_iff] at done
    have empty : q.stack = [] := done
    simp [empty]
  | @ended p q open_ hs =>
    obtain ⟨label, class_, runs⟩ := shift_runs ok h.ready.known hs (by simp)
    have empty : q.stack = [] := runs.ended_stack rfl
    simp [empty]
  | @again p q q' x open_ hs hr next ih =>
    have stuck := h.stuck ok lay sec token hs
    have moved : Linked g q.spine := linked.shift ok h.ready.known hs
    exact ih (moved.recover hr) (stuck.recover sec lay token hr).1
  | absorbed open_ hs hr => exact ((h.stuck ok lay sec token hs).recover sec lay token hr).2

/-- Closing frames of other rules keeps the tree regular. -/
theorem Traces.closeAll {n : Nat} (sec : g.Secluded rules) (h : Traces g T rules p)
    (outside : ∀ f ∈ p.stack, f.rule.name ∉ rules) : Traces g T rules (closeAll n p) := by
  have out : ∀ f ∈ p.spine, f.1.name ∉ rules := by
    intro f hf
    obtain ⟨u, hu, rfl⟩ := List.mem_map.1 hf
    exact outside u hu
  refine (closeAll_keeps (P := fun q => Traces g T rules q ∧ ∀ f ∈ q.spine, f.1.name ∉ rules)
    (fun {q top rest} hs _ _ h => ?_) (fun {q top rest} hs _ h => ?_) ⟨h, out⟩).1
  · obtain ⟨traces, out⟩ := h
    have known := traces.known
    have trees := traces.trees
    rw [Known, spine_eq hs] at known
    rw [spine_eq hs] at out
    rw [hs] at trees
    refine ⟨.of_outside (fun f hf => known f (List.mem_cons_of_mem _ hf)) (fun f hf => ?_)
      (fun f hf => trees f (List.mem_cons_of_mem _ hf)) traces.root,
      fun f hf => out f (List.mem_cons_of_mem _ hf)⟩
    exact out (f.rule, f.state) (List.mem_cons_of_mem _ (List.mem_map_of_mem hf))
  · obtain ⟨traces, out⟩ := h
    have innermost : top.rule.name ∉ rules :=
      out (top.rule, top.state) (by rw [spine_eq hs]; exact List.mem_cons_self)
    refine ⟨traces.pop sec hs fun inside => absurd inside innermost, fun f hf => ?_⟩
    rw [spine_pop] at hf
    exact out f (List.mem_of_mem_tail hf)

end Parser

namespace Module

variable {g : Grammar} {rules : List String}

/-- The tree of a source is regular, and so is what was set aside; its leaves are leaves of the
tree, in order. -/
theorem parse_regular (ok : g.Consistent) (lay : g.Layered) (closed : g.Sealed)
    (sec : g.Secluded rules) {source : Text} {m : Module} (parsed : parse g source = .ok m) :
    m.root.Regular g (tokenize (completed source)) rules ∧
      ∀ s ∈ m.broken, s.Regular g (tokenize (completed source)) rules ∧
        s.leaves.Sublist m.root.leaves := by
  obtain ⟨body, last, tokens, marker, inner⟩ := tokenize_eq (completed source)
  rw [parse_eq ok lay, tokens, Except.ok.injEq] at parsed
  rw [tokens]
  have tracing := (Parser.tracing_new ok lay sec (T := body ++ [last])).feedFrom ok lay sec
    (fun t ht => List.mem_append_left _ ht) inner
  have token : last ∈ body ++ [last] := by simp
  obtain ⟨traces, -, broken⟩ := tracing.feed ok lay sec token
  obtain ⟨-, -, whole, -⟩ := Parser.feed_lossless (t := last) ok lay tracing.ready
  have fed : Parser.fed g (body ++ [last]) = (Parser.feed g last (Parser.fed g body)).2 :=
    Parser.feedFrom_append body [last]
  have outside : ∀ f ∈ (Parser.fed g (body ++ [last])).stack, f.rule.name ∉ rules := by
    have linked : Parser.Linked g (Parser.fed g body).spine :=
      (Parser.linked_new ok).feedFrom ok (Parser.known_new g) body
    rw [fed]
    rcases Parser.feed_cases ok tracing.ready.known (t := last) with ⟨closes, -⟩ | ⟨kept, offers⟩
    · rw [Parser.closesOmitted, marker] at closes
      cases closes
    · have same : (Parser.fed g body).count last.kind = Parser.fed g body := by
        rw [marker]
        rfl
      rw [Parser.fed] at same linked
      rw [same] at offers
      exact offers.outside ok lay closed sec token marker linked tracing
  obtain ⟨root, hr, leaves⟩ := Parser.leaves_closeAll (p := Parser.fed g (body ++ [last]))
    (fed ▸ whole) (Nat.le_refl _)
  have final := Parser.Traces.closeAll (n := (Parser.fed g (body ++ [last])).stack.length) sec
    (fed ▸ traces) outside
  have tree : m.root = root := by
    rw [← parsed, Parser.finish]
    dsimp only
    rw [hr]
  have set : m.broken = (Parser.fed g (body ++ [last])).broken := by
    rw [← parsed]
    exact Parser.broken_finish
  refine ⟨tree ▸ final.root root hr, fun s hs => ?_⟩
  rw [set, fed] at hs
  rw [tree, leaves, fed]
  exact broken s hs

end Module

end Caret

import Caret.Proofs.Clean
/-!
# The shape of parsed trees

Every branch of a parsed tree has a child. A frame on top of others has one when it is closed: it
was entered for a token that it took, or something below it was closed or set aside. Recovery stops
at a frame that has children or at the outermost one, and makes error branches only of frames that
have children.

Results:
* `Tree.Formed`: branches have children and are named after rules, or hold what was set aside.
* `Shaped`: what holds of the open frames, and is kept by feeding a token.
* `finish_formed`, `Module.parse_formed`: the tree of a source is formed, and a branch of the start
  rule.
-/
namespace Caret

/-- Every branch has a child, and is named after a rule of the grammar or holds what recovery set
aside. -/
inductive Tree.Formed (g : Grammar) : Tree → Prop
  | leaf (l : Leaf) : Formed g (.leaf l)
  | branch {rule : String} {children : List Tree}
      (named : rule = Tree.errorNode ∨ ∃ r ∈ g.rules, r.name = rule) (some : children ≠ [])
      (h : ∀ c ∈ children, Formed g c) : Formed g (.branch rule children)

/-- The children of the frame are formed. -/
def Frame.Formed (g : Grammar) (f : Frame) : Prop := ∀ c ∈ f.children, c.Formed g

/-- The frame on top has children. -/
def Laden (stack : List Frame) : Prop := ∀ f ∈ stack.head?, f.children ≠ []

/-- The frame on top has children if it is not the outermost one. -/
def Busy (stack : List Frame) : Prop := ∀ f ∈ stack.head?, stack.tail ≠ [] → f.children ≠ []

variable {g : Grammar} {f top : Frame} {rest : List Frame} {tree : Tree}

theorem Laden.busy {stack : List Frame} (h : Laden stack) : Busy stack := fun f hf _ => h f hf

theorem laden_add : Laden (f.add tree :: rest) := by
  intro f' hf
  cases hf
  simp [Frame.add]

theorem Frame.Formed.add (h : f.Formed g) (formed : tree.Formed g) : (f.add tree).Formed g := by
  intro c hc
  rcases List.mem_append.1 hc with hc | hc
  · exact h c hc
  · rwa [List.mem_singleton.1 hc]

/-- Closing a frame that has children makes a formed tree. -/
theorem Frame.Formed.close (h : f.Formed g) (some : f.children ≠ []) (known : f.rule ∈ g.rules) :
    f.close.Formed g := by
  rcases f.close_cases with ⟨only, single, -, closed⟩ | ⟨closed, -⟩ <;> rw [closed]
  · exact h only (by rw [single]; exact List.mem_singleton_self _)
  · exact .branch (.inr ⟨_, known, rfl⟩) some h

namespace Parser

variable {label target : Nat} {t : Token} {p q : Parser} {sub : RuleTable}

/-! ## One token -/

/-- All children in the frames are formed, and so is the tree, if there is one, which is a branch of
the start rule then. -/
structure Molded (g : Grammar) (p : Parser) : Prop where
  known : Known g p
  linked : Linked g p.spine
  frames : ∀ f ∈ p.stack, f.Formed g
  root : ∀ t, p.root = some t → t.Formed g ∧ ∃ children, t = .branch "file_input" children

theorem Molded.addLeaf {l : Leaf} (h : Molded g p) (hs : p.stack = top :: rest) :
    Molded g (p.addLeaf l) ∧ Laden (p.addLeaf l).stack := by
  obtain ⟨root, stack⟩ := addLeaf_open (l := l) hs
  refine ⟨⟨fun f hf => h.known f (by rwa [spine_addLeaf] at hf),
    by rw [spine_addLeaf]; exact h.linked, ?_, fun t ht => h.root t (root ▸ ht)⟩,
    by rw [stack]; exact laden_add⟩
  intro f hf
  rw [stack] at hf
  have frames := h.frames
  rw [hs] at frames
  rcases List.mem_cons.1 hf with rfl | hf
  · exact (frames top List.mem_cons_self).add (.leaf l)
  · exact frames f (List.mem_cons_of_mem _ hf)

/-- Closing a frame that has children. -/
theorem Molded.pop (lay : g.Layered) (h : Molded g p) (hs : p.stack = top :: rest)
    (some : top.children ≠ []) : Molded g p.pop ∧ Laden p.pop.stack := by
  have frames := h.frames
  rw [hs] at frames
  have formed : top.close.Formed g :=
    (frames top List.mem_cons_self).close some (h.known.innermost hs)
  cases rest with
  | nil =>
    obtain ⟨stack, root⟩ := pop_outermost hs
    have linked := h.linked
    rw [spine_eq hs] at linked
    have start : g.start? = .some top.rule := by
      cases linked with
      | start h => exact h
    refine ⟨⟨h.known.pop, h.linked.pop, by rw [stack]; simp, fun t ht => ?_⟩,
      by rw [stack]; simp [Laden]⟩
    rw [root] at ht
    cases ht
    refine ⟨formed, top.children, ?_⟩
    rw [Frame.close_kept (by rw [lay.name start]; decide), lay.name start]
  | cons lower below =>
    obtain ⟨stack, root⟩ := pop_inner hs
    refine ⟨⟨h.known.pop, h.linked.pop, ?_, fun t ht => h.root t (root ▸ ht)⟩,
      by rw [stack]; exact laden_add⟩
    intro f hf
    rw [stack] at hf
    rcases List.mem_cons.1 hf with rfl | hf
    · exact (frames lower (by simp)).add formed
    · exact frames f (by simp [hf])

theorem Molded.popCompleted {n : Nat} (lay : g.Layered) (h : Molded g p) (laden : Laden p.stack) :
    Molded g (popCompleted n p) ∧ Laden (popCompleted n p).stack := by
  refine popCompleted_keeps (P := fun q => Molded g q ∧ Laden q.stack)
    (fun {q top rest} hs _ h => ?_) ⟨h, laden⟩
  exact h.1.pop lay hs (h.2 top (by rw [hs]; rfl))

theorem Molded.moveTo (h : Molded g p) (hs : p.stack = top :: rest) :
    Molded g (p.moveTo target) := by
  refine ⟨h.known.moveTo hs, ?_, fun f hf => ?_, fun t ht => h.root t ?_⟩
  · have linked := h.linked
    rw [spine_eq hs] at linked
    rw [spine_moveTo hs]
    exact linked.move
  · have frames := h.frames
    rw [hs] at frames
    rw [moveTo_stack hs] at hf
    rcases List.mem_cons.1 hf with rfl | hf
    · exact frames top List.mem_cons_self
    · exact frames f (List.mem_cons_of_mem _ hf)
  · rw [Parser.moveTo, hs] at ht
    exact ht

theorem Molded.push {a : Arc} (h : Molded g p) (hs : p.stack = top :: rest) (ha : a ∈ top.arcs)
    (enters : g.Enters a sub) : Molded g (p.push sub a.target) := by
  refine ⟨h.known.push hs enters.mem, ?_, fun f hf => ?_, fun t ht => h.root t ?_⟩
  · have linked := h.linked
    rw [spine_eq hs] at linked
    rw [spine_push hs]
    exact .cons ha enters rfl linked.move
  · have frames := h.frames
    rw [hs] at frames
    rw [push_stack hs] at hf
    rcases List.mem_cons.1 hf with rfl | hf
    · exact fun c hc => absurd hc List.not_mem_nil
    · rcases List.mem_cons.1 hf with rfl | hf
      · exact frames top List.mem_cons_self
      · exact frames f (List.mem_cons_of_mem _ hf)
  · rw [Parser.push, Parser.moveTo, hs] at ht
    exact ht

/-- The frame on top has children, is the outermost one or was entered for a token of this label. -/
def Fresh (label : Nat) (stack : List Frame) : Prop :=
  Busy stack ∨ ∃ top rest, stack = top :: rest ∧ top.state = 0 ∧ label ∈ top.rule.first

theorem fresh_push (hs : p.stack = top :: rest) (first : label ∈ sub.first) :
    Fresh label (p.push sub target).stack := .inr ⟨_, _, push_stack hs, rfl, first⟩

/-- A frame that was entered for the token takes it. -/
theorem Fresh.busy (ok : g.Consistent) (known : Known g p) (h : Fresh label p.stack)
    (hs : p.stack = top :: rest) (none : move? g label top.arcs = none) : Busy p.stack := by
  rcases h with busy | ⟨top', rest', hs', start, first⟩
  · exact busy
  · rw [hs] at hs'
    cases hs'
    rw [Frame.arcs, start] at none
    exact absurd none (move?_first ok (known.innermost hs) first)

/-- One token keeps the shape of the trees, if every frame that it finds on top has children or was
entered for it. A token that is shifted leaves a frame with children on top. -/
theorem Runs.molded {r : Outcome × Parser} (ok : g.Consistent) (lay : g.Layered)
    (h : Runs g label t p r) (molded : Molded g p) (fresh : Fresh label p.stack)
    (hr : r.1 ≠ .ended) :
    Molded g r.2 ∧ Busy r.2.stack ∧ ((∃ done, r.1 = .shifted done) → Laden r.2.stack) := by
  induction h with
  | complete h => exact absurd rfl hr
  | @shift p top rest target hs hm =>
    obtain ⟨a, ha, -, rfl⟩ := move?_shift hm
    obtain ⟨added, laden⟩ := (molded.moveTo hs).addLeaf (l := leafOf g label t) (moveTo_stack hs)
    obtain ⟨closed, laden'⟩ := added.popCompleted lay laden
      (n := ((p.moveTo a.target).addLeaf (leafOf g label t)).stack.length)
    exact ⟨closed, laden'.busy, fun _ => laden'⟩
  | @enter p top rest sub target r hs hm _ ih =>
    obtain ⟨a, ha, enters, first, rfl⟩ := move?_enter hm
    exact ih (molded.push hs ha enters) (fresh_push hs first) hr
  | last => exact absurd rfl hr
  | @close p top rest r hs below hm _ _ ih =>
    have some : top.children ≠ [] :=
      fresh.busy ok molded.known hs hm top (by rw [hs]; rfl) (by rw [hs]; exact below)
    obtain ⟨closed, laden⟩ := molded.pop lay hs some
    exact ih closed (.inl laden.busy) hr
  | stuck hs hm =>
    refine ⟨molded, fresh.busy ok molded.known hs hm, ?_⟩
    rintro ⟨done, shifted⟩
    cases shifted

/-! ## Recovery -/

/-- What recovery stops at has children, or is the outermost frame; a simple statement has some. -/
theorem Molded.container (lay : g.Layered) (closed : g.Sealed) {c : Cut} (h : Molded g p)
    (orderly : Orderly g p.stack) (hc : cut? [] p.stack = some c) :
    (c.container.children ≠ [] ∨ c.below = []) ∧
      (c.container.rule.name = "simple_stmt" → c.container.children ≠ []) := by
  have whole : p.stack = c.above ++ c.container :: c.below := (cut?_stack hc).symm
  rcases cut?_container hc with (source | ⟨-, two⟩) | bottom
  · refine ⟨.inr ?_, fun name => by rw [source] at name; exact absurd name (by decide)⟩
    -- the start rule is entered by no other
    have known : c.container.rule ∈ g.rules :=
      h.known (c.container.rule, c.container.state) (by simp [spine, spineOf, whole])
    have linked := h.linked.drop c.above.length
    have rest : p.spine.drop c.above.length =
        (c.container.rule, c.container.state) :: spineOf c.below := by
      simp [spine, spineOf, whole]
    rw [rest] at linked
    have lower : ∀ f ∈ spineOf c.below, f.1 ∈ g.rules := fun f hf =>
      h.known f (List.mem_of_mem_drop (rest ▸ List.mem_cons_of_mem _ hf))
    have bottom := linked.start_outermost closed lower (closed.named known source)
    exact List.map_eq_nil_iff.1 bottom
  · have some : c.container.children ≠ [] := by
      intro none
      rw [none] at two
      cases two
    exact ⟨.inl some, fun _ => some⟩
  · refine ⟨.inr bottom, fun name => ?_⟩
    rw [whole, bottom] at orderly
    cases orderly.drop with
    | source start => rw [lay.name start] at name; exact absurd name (by decide)

theorem Cut.fold_stops {c : Cut} (h : c.container.children ≠ [] ∨ c.below = []) :
    c.fold.container.children ≠ [] ∨ c.fold.below = [] := by
  have folds := c.foldsTo_fold
  generalize c.fold = d at folds ⊢
  cases folds with
  | same => exact h
  | own => exact .inr rfl
  | outer => exact .inr rfl
  | further => exact .inl (by simp [Frame.add])

/-- Folding keeps the children formed, and what recovery stops at has children or is outermost. -/
theorem Molded.fold (lay : g.Layered) (closed : g.Sealed) {c : Cut} (h : Molded g p)
    (orderly : Orderly g p.stack) (hc : cut? [] p.stack = some c) :
    (∀ f ∈ c.fold.stack, f.Formed g) ∧ (c.fold.container.children ≠ [] ∨ c.fold.below = []) := by
  have whole : p.stack = c.stack := (cut?_stack hc).symm
  obtain ⟨stops, simple⟩ := h.container lay closed orderly hc
  have frames := h.frames
  rw [whole] at frames
  refine ⟨c.fold_children frames fun name => ?_, c.fold_stops stops⟩
  have known : c.container.rule ∈ g.rules :=
    h.known (c.container.rule, c.container.state) (by simp [spine, spineOf, whole, Cut.stack])
  exact .branch (.inr ⟨_, known, rfl⟩) (simple name) (frames c.container (by simp [Cut.stack]))

/-- What recovery takes off makes a formed branch. -/
theorem Cut.removed_formed {c : Cut} (frames : ∀ f ∈ c.above, f.Formed g) (some : c.removed ≠ []) :
    (Tree.branch Tree.errorNode (c.removed.flatMap (·.children))).Formed g := by
  refine .branch (.inl rfl) ?_ fun tree ht => ?_
  · -- the outermost frame taken off has children
    have first := List.head?_dropWhile_not (fun f : Frame => f.children.isEmpty) c.above.reverse
    rw [← Cut.removed] at first
    obtain ⟨f, rest, hf⟩ := List.exists_cons_of_ne_nil some
    rw [hf] at first ⊢
    intro none
    simp only [List.head?_cons] at first
    simp [List.flatMap_cons, List.append_eq_nil_iff] at none
    rw [none.1] at first
    cases first
  · obtain ⟨f, hf, ht⟩ := List.mem_flatMap.1 ht
    have above : f ∈ c.above := List.mem_reverse.1 ((List.dropWhile_sublist _).subset hf)
    exact frames f above tree ht

/-- Recovery keeps the children formed. The frame on top has children then, unless an opening token
was dropped at the outermost frame. -/
theorem Molded.recover {again : Bool} (lay : g.Layered) (closed : g.Sealed) (h : Molded g p)
    (ready : Ready g p) (hr : recover t p = (again, q)) :
    Molded g q ∧ Busy q.stack ∧ (t.kind ≠ .indent → Laden q.stack) := by
  obtain ⟨c, hc, recovers⟩ := recover_cases ready.orderly.ne_nil hr
  obtain ⟨ready', -⟩ := ready.recover lay hr
  have linked := h.linked.recover hr
  have same : ∀ t, q.root = some t → t.Formed g ∧ ∃ children, t = .branch "file_input" children :=
    fun t ht => h.root t (recovers.root_eq ▸ ht)
  obtain ⟨frames, stops⟩ := h.fold lay closed ready.orderly hc
  have container : c.fold.container.Formed g := frames _ (by simp [Cut.stack])
  have below : ∀ f ∈ c.fold.below, f.Formed g := fun f hf => frames f (by simp [Cut.stack, hf])
  have above : ∀ f ∈ c.fold.above, f.Formed g := fun f hf => frames f (by simp [Cut.stack, hf])
  -- what is added to the container
  have added {tree : Tree} (formed : tree.Formed g)
      (stack : q.stack = c.fold.container.add tree :: c.fold.below) :
      Molded g q ∧ Busy q.stack ∧ (t.kind ≠ .indent → Laden q.stack) := by
    have laden : Laden q.stack := by rw [stack]; exact laden_add
    refine ⟨⟨ready'.known, linked, fun f hf => ?_, same⟩, laden.busy, fun _ => laden⟩
    rw [stack] at hf
    rcases List.mem_cons.1 hf with rfl | hf
    · exact container.add formed
    · exact below f hf
  cases recovers with
  | dropped none kind =>
    refine ⟨⟨ready'.known, linked, fun f hf => ?_, same⟩, ?_, fun other => absurd kind other⟩
    · rcases List.mem_cons.1 hf with rfl | hf
      · exact container
      · exact below f hf
    · intro f hf more
      cases hf
      exact stops.resolve_right more
  | misplaced => exact added (.leaf _) rfl
  | removed some => exact added (Cut.removed_formed above some) rfl

/-! ## Feeding tokens -/

/-- A state that tokens can be fed to, with formed trees and children in the frame on top. -/
structure Shaped (g : Grammar) (p : Parser) : Prop extends Ready g p, Molded g p where
  busy : Busy p.stack

theorem shaped_new (ok : g.Consistent) : Shaped g (new g) := by
  obtain ⟨start, hs⟩ := ok.start
  refine ⟨(ready_new ok).1, linked_new ok, ?_, fun t ht => ?_, ?_⟩
  · rw [new_stack hs]
    intro f hf c hc
    rw [List.mem_singleton.1 hf] at hc
    exact absurd hc List.not_mem_nil
  · cases ht
  · rw [new_stack hs]
    intro f _ more
    exact absurd rfl more

theorem Shaped.stuck (ok : g.Consistent) (lay : g.Layered) (h : Shaped g p)
    (hs : shift g t p = (.stuck, q)) : Shaped g q := by
  rcases shift_cases ok h.known hs with ⟨-, -, rfl⟩ | ⟨label, -, runs⟩
  · exact h
  · obtain ⟨molded, busy, -⟩ := runs.molded ok lay h.toMolded (.inl h.busy) (by simp)
    exact ⟨(h.toReady.stuck ok lay hs).1, molded.linked, molded.frames, molded.root, busy⟩

theorem Shaped.recover {again : Bool} (lay : g.Layered) (closed : g.Sealed) (h : Shaped g p)
    (hr : recover t p = (again, q)) : Shaped g q := by
  obtain ⟨molded, busy, -⟩ := h.toMolded.recover lay closed h.toReady hr
  exact ⟨(h.toReady.recover lay hr).1, molded.linked, molded.frames, molded.root, busy⟩

theorem Shaped.offers {r : Except ParseError Bool × Parser} (ok : g.Consistent) (lay : g.Layered)
    (closed : g.Sealed) (h : Shaped g p) (offers : Offers g t p r) :
    Molded g r.2 ∧ Busy r.2.stack := by
  rcases offers.fate (P := Shaped g) ok lay h.toReady (fun h hs => h.stuck ok lay hs)
    (fun h hr => h.recover lay closed hr) h
    with ⟨q, label, done, -, shaped, -, -, -, runs, -⟩ | ⟨-, -, shaped, -⟩
  · obtain ⟨molded, busy, -⟩ := runs.molded ok lay shaped.toMolded (.inl shaped.busy) (by simp)
    exact ⟨molded, busy⟩
  · exact ⟨shaped.toMolded, shaped.busy⟩

/-- Feeding a token keeps the shape of the trees. -/
theorem Shaped.feed (ok : g.Consistent) (lay : g.Layered) (closed : g.Sealed) (h : Shaped g p) :
    Molded g (feed g t p).2 ∧ Busy (feed g t p).2.stack := by
  rcases feed_cases ok h.known (t := t) with ⟨-, hf⟩ | ⟨-, offers⟩
  · rw [hf]
    exact ⟨⟨h.known, h.linked, h.frames, h.root⟩, h.busy⟩
  · have counted : Shaped g (p.count t.kind) := by
      refine ⟨h.toReady.count t.kind, ?_, ?_, fun u hu => h.root u (root_count t.kind ▸ hu), ?_⟩
      · rw [spine_count]
        exact h.linked
      · rw [stack_count]
        exact h.frames
      · rw [stack_count]
        exact h.busy
    exact counted.offers ok lay closed offers

theorem Shaped.feedFrom (ok : g.Consistent) (lay : g.Layered) (closed : g.Sealed)
    {tokens : List Token} (inner : ∀ t ∈ tokens, t.kind ≠ .endMarker) (h : Shaped g p) :
    Shaped g (feedFrom g p tokens) := by
  induction tokens generalizing p with
  | nil => exact h
  | cons t tokens ih =>
    obtain ⟨-, goesOn, -⟩ := feed_lossless (t := t) ok lay h.toReady
    obtain ⟨molded, busy⟩ := h.feed ok lay closed (t := t)
    exact ih (fun u hu => inner u (List.mem_cons_of_mem _ hu))
      ⟨(goesOn (inner t List.mem_cons_self)).2, molded.linked, molded.frames, molded.root, busy⟩

/-- Closing all frames makes a formed tree, if there is a leaf. -/
theorem Molded.closeAll {n : Nat} (lay : g.Layered) (h : Molded g p) (busy : Busy p.stack)
    (whole : Whole p) (some : p.leaves ≠ []) : Molded g (closeAll n p) := by
  refine (closeAll_keeps
    (P := fun q => Molded g q ∧ Busy q.stack ∧ Whole q ∧ q.leaves ≠ [])
    (fun {q top rest} hs none inner h => ?_) (fun {q top rest} hs _ h => ?_)
    ⟨h, busy, whole, some⟩).1
  · obtain ⟨-, busy, -⟩ := h
    exact absurd none (busy top (by rw [hs]; rfl) (by rw [hs]; exact inner))
  · obtain ⟨molded, busy, whole, some⟩ := h
    have laden : top.children ≠ [] := by
      intro none
      have leaves := whole.leaves hs
      cases rest with
      | nil => exact some (by rw [leaves]; simp [leavesIn, Frame.leaves, none])
      | cons => exact busy top (by rw [hs]; rfl) (by rw [hs]; exact List.cons_ne_nil _ _) none
    obtain ⟨popped, laden'⟩ := molded.pop lay hs laden
    obtain ⟨whole', same⟩ := leaves_pop whole
    exact ⟨popped, laden'.busy, whole', same ▸ some⟩

/-- Whatever is read, closing all frames behind its tokens makes a formed tree. -/
theorem finish_formed (ok : g.Consistent) (lay : g.Layered) (closed : g.Sealed) (source : Text) :
    ((fed g (tokenize source)).finish g).root.Formed g ∧
      ∃ children, ((fed g (tokenize source)).finish g).root = .branch "file_input" children := by
  obtain ⟨body, last, tokens, marker, inner⟩ := tokenize_eq source
  have shaped := (shaped_new ok).feedFrom ok lay closed inner
  obtain ⟨molded, busy⟩ := shaped.feed ok lay closed (t := last)
  obtain ⟨-, -, whole, ls, added, makes⟩ := feed_lossless (t := last) ok lay shaped.toReady
  have all : fed g (body ++ [last]) = (feed g last (fed g body)).2 := feedFrom_append body [last]
  have some : (fed g (body ++ [last])).leaves ≠ [] := by
    rw [all]
    intro none
    rcases makes with ⟨l, rfl, -⟩ | ⟨-, block⟩
    · have empty := none.symm.trans added
      simp at empty
    · rw [marker] at block
      rcases block with block | block <;> cases block
  have final := Molded.closeAll (n := (fed g (body ++ [last])).stack.length) lay
    (all ▸ molded) (all ▸ busy) (all ▸ whole) some
  obtain ⟨root, hr, -⟩ := leaves_closeAll (p := fed g (body ++ [last])) (all ▸ whole)
    (Nat.le_refl _)
  rw [tokens, finish, hr]
  exact final.root root hr

end Parser

namespace Module

/-- The tree of a source is formed. -/
theorem parse_formed (ok : g.Consistent) (lay : g.Layered) (closed : g.Sealed) {source : Text}
    {m : Module} (parsed : parse g source = .ok m) :
    m.root.Formed g ∧ ∃ children, m.root = .branch "file_input" children := by
  rw [parse_eq ok lay, Except.ok.injEq] at parsed
  rw [← parsed]
  exact Parser.finish_formed ok lay closed (completed source)

end Module

end Caret

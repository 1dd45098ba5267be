import Caret.Proofs.Feeding
/-!
# The leaves that a parser holds

The leaves made so far stand in the open frames, the outermost frame first, and when no frame is
open any more, in the tree. Closing rules keeps them as they are and a shift adds one at the end. So
does recovery, where it folds a simple statement only if nothing stands between the statement and
the frame that it is folded into.

Results:
* `Parser.leaves`: the leaves made so far, in document order.
* `Runs.leaves_eq`: what one token adds to them.
* `leaves_recover`: recovery adds an error leaf at most.
* `leaves_finish`: the tree in the end has these leaves.
-/
namespace Caret

/-- The leaves under the children of a frame. -/
def Frame.leaves (f : Frame) : List Leaf := f.children.flatMap Tree.leaves

@[simp] theorem Frame.leaves_add (f : Frame) (t : Tree) :
    (f.add t).leaves = f.leaves ++ t.leaves := by
  simp [Frame.leaves, Frame.add]

@[simp] theorem Frame.leaves_close (f : Frame) : f.close.leaves = f.leaves := by
  rcases f.close_cases with ⟨only, single, -, closed⟩ | ⟨closed, -⟩ <;> rw [closed, Frame.leaves]
  · rw [single, List.flatMap_singleton]
  · rw [Tree.leaves_branch]

namespace Parser

variable {g : Grammar} {label target : Nat} {t : Token} {p q : Parser} {top : Frame}
  {rest : List Frame} {sub : RuleTable}

/-! ## Leaves -/

/-- The leaves in frames, given innermost first; those of the outermost come first. -/
def leavesIn : List Frame → List Leaf
  | [] => []
  | f :: below => leavesIn below ++ f.leaves

theorem leavesIn_append (above below : List Frame) :
    leavesIn (above ++ below) = leavesIn below ++ leavesIn above := by
  induction above with
  | nil => simp [leavesIn]
  | cons f above ih => simp only [List.cons_append, leavesIn, ih, List.append_assoc]

theorem leavesIn_reverse (frames : List Frame) :
    leavesIn frames = (frames.reverse.flatMap (·.children)).flatMap Tree.leaves := by
  induction frames with
  | nil => rfl
  | cons f frames ih => simp [leavesIn, ih, Frame.leaves]

/-- The leaves made so far. -/
def leaves (p : Parser) : List Leaf :=
  match p.root with
  | some root => root.leaves
  | none => leavesIn p.stack

/-- There is a tree if and only if no frame is open. -/
def Whole (p : Parser) : Prop := p.root = none ↔ p.stack ≠ []

theorem Whole.root (h : Whole p) (hs : p.stack = top :: rest) : p.root = none :=
  h.2 (by rw [hs]; exact List.cons_ne_nil _ _)

theorem Whole.leaves (h : Whole p) (hs : p.stack = top :: rest) :
    p.leaves = leavesIn rest ++ top.leaves := by
  unfold Parser.leaves
  rw [h.root hs, hs]
  rfl

theorem whole_of_open (hroot : p.root = none) (hs : p.stack = top :: rest) : Whole p := by
  rw [Whole, hroot, hs]
  simp

/-- A state with this stack and without a tree has the leaves of the stack. -/
theorem leaves_of_open (hroot : p.root = none) (hs : p.stack = top :: rest) :
    Whole p ∧ p.leaves = leavesIn rest ++ top.leaves :=
  ⟨whole_of_open hroot hs, (whole_of_open hroot hs).leaves hs⟩

theorem attach_open {tree : Tree} (hs : p.stack = top :: rest) :
    (p.attach tree).root = p.root ∧ (p.attach tree).stack = top.add tree :: rest := by
  unfold attach
  rw [hs]
  exact ⟨rfl, rfl⟩

theorem addLeaf_open {l : Leaf} (hs : p.stack = top :: rest) :
    (p.addLeaf l).root = p.root ∧ (p.addLeaf l).stack = top.add (.leaf l) :: rest :=
  attach_open (p := { p with nodes := p.nodes + 1 }) hs

/-- Making a leaf adds it to the leaves. -/
theorem leaves_addLeaf {l : Leaf} (h : Whole p) (hs : p.stack = top :: rest) :
    Whole (p.addLeaf l) ∧ (p.addLeaf l).leaves = p.leaves ++ [l] := by
  obtain ⟨root, stack⟩ := addLeaf_open (l := l) hs
  obtain ⟨whole, leaves⟩ := leaves_of_open (root.trans (h.root hs)) stack
  refine ⟨whole, ?_⟩
  rw [leaves, h.leaves hs, Frame.leaves_add, Tree.leaves_leaf, List.append_assoc]

theorem leaves_moveTo (h : Whole p) (hs : p.stack = top :: rest) :
    Whole (p.moveTo target) ∧ (p.moveTo target).leaves = p.leaves := by
  have hr : (p.moveTo target).root = none := by rw [moveTo, hs]; exact h.root hs
  obtain ⟨whole, leaves⟩ := leaves_of_open hr (moveTo_stack hs)
  exact ⟨whole, by rw [leaves, h.leaves hs]; rfl⟩

/-- Closing a rule keeps the leaves. -/
theorem leaves_pop (h : Whole p) : Whole p.pop ∧ p.pop.leaves = p.leaves := by
  cases hs : p.stack with
  | nil =>
    rw [pop_empty hs]
    exact ⟨h, rfl⟩
  | cons top rest =>
    have hroot := h.root hs
    cases rest with
    | nil =>
      obtain ⟨hk, hr⟩ := pop_outermost hs
      refine ⟨by rw [Whole, hr, hk]; simp, ?_⟩
      rw [h.leaves hs, Parser.leaves, hr]
      simp [leavesIn]
    | cons next rest =>
      obtain ⟨hk, hr⟩ := pop_inner hs
      obtain ⟨whole, leaves⟩ := leaves_of_open (hr.trans hroot) hk
      refine ⟨whole, ?_⟩
      rw [leaves, h.leaves hs]
      simp [leavesIn]

theorem leaves_popCompleted {n : Nat} (h : Whole p) :
    Whole (popCompleted n p) ∧ (popCompleted n p).leaves = p.leaves := by
  refine popCompleted_keeps (P := fun q => Whole q ∧ q.leaves = p.leaves) (fun _ _ h => ?_) ⟨h, rfl⟩
  obtain ⟨whole, leaves⟩ := leaves_pop h.1
  exact ⟨whole, leaves.trans h.2⟩

/-- Entering a rule keeps the leaves. -/
theorem leaves_push (h : Whole p) (hs : p.stack = top :: rest) :
    Whole (p.push sub target) ∧ (p.push sub target).leaves = p.leaves := by
  have hr : (p.push sub target).root = none := by
    rw [push, moveTo, hs]
    exact h.root hs
  obtain ⟨whole, leaves⟩ := leaves_of_open hr (push_stack hs)
  refine ⟨whole, ?_⟩
  rw [leaves, h.leaves hs]
  simp [leavesIn, Frame.leaves]

/-- A shift adds the leaf of its token. -/
theorem leaves_take (h : Whole p) (hs : p.stack = top :: rest) :
    Whole (take g label target t p) ∧
      (take g label target t p).leaves = p.leaves ++ [leafOf g label t] := by
  obtain ⟨moved, same⟩ : Whole (p.moveTo target) ∧ (p.moveTo target).leaves = p.leaves :=
    leaves_moveTo h hs
  obtain ⟨added, leaves⟩ := leaves_addLeaf (l := leafOf g label t) moved (moveTo_stack hs)
  obtain ⟨closed, leaves'⟩ := leaves_popCompleted added
  exact ⟨closed, leaves'.trans (by rw [leaves, same])⟩

/-- One token adds its leaf if it is shifted, and nothing if not. -/
theorem Runs.leaves_eq {r : Outcome × Parser} (h : Runs g label t p r) (hw : Whole p) :
    Whole r.2 ∧ ((∃ done, r.1 = .shifted done) → r.2.leaves = p.leaves ++ [leafOf g label t]) ∧
      ((∀ done, r.1 ≠ .shifted done) → r.2.leaves = p.leaves) := by
  induction h with
  | complete => exact ⟨hw, fun ⟨_, h⟩ => (by cases h), fun _ => rfl⟩
  | shift h =>
    obtain ⟨whole, leaves⟩ := leaves_take hw h
    exact ⟨whole, fun _ => leaves, fun h => absurd rfl (h _)⟩
  | enter h _ _ ih =>
    obtain ⟨whole, leaves⟩ := leaves_push hw h
    rw [← leaves]
    exact ih whole
  | last =>
    obtain ⟨whole, leaves⟩ := leaves_pop hw
    exact ⟨whole, fun ⟨_, h⟩ => (by cases h), fun _ => leaves⟩
  | close _ _ _ _ _ ih =>
    obtain ⟨whole, leaves⟩ := leaves_pop hw
    rw [← leaves]
    exact ih whole
  | stuck => exact ⟨hw, fun ⟨_, h⟩ => (by cases h), fun _ => rfl⟩

/-! ## Recovery -/

/-- A simple statement on top of two frames has nothing beside it in the frame below. -/
def Cut.Alone (c : Cut) : Prop :=
  ∀ {inner outer : Frame} {below : List Frame}, c.container.rule.name = "simple_stmt" →
    c.below = inner :: outer :: below → inner.children = []

/-- Folding keeps the leaves and their order. -/
theorem Cut.leaves_fold {c : Cut} (alone : c.Alone) : leavesIn c.fold.stack = leavesIn c.stack := by
  have none : c.emptied.leaves = [] := rfl
  have statement : c.statement.leaves = c.container.leaves := Tree.leaves_branch ..
  have folds := c.foldsTo_fold
  generalize c.fold = d at folds ⊢
  cases folds with
  | same => rfl
  | own _ hb => simp [Cut.stack, hb, leavesIn, leavesIn_append, none, statement]
  | outer _ hb => simp [Cut.stack, hb, leavesIn, leavesIn_append, none, statement]
  | @further inner _ _ simple hb =>
    have empty : inner.leaves = [] := by rw [Frame.leaves, alone simple hb, List.flatMap_nil]
    simp [Cut.stack, hb, leavesIn, leavesIn_append, none, statement, empty]

/-- What is dropped in front adds nothing. -/
theorem flatMap_dropWhile {α β : Type} {f : α → List β} {drops : α → Bool}
    (none : ∀ x, drops x = true → f x = []) (xs : List α) :
    (xs.dropWhile drops).flatMap f = xs.flatMap f := by
  induction xs with
  | nil => rfl
  | cons x xs ih =>
    rw [List.dropWhile_cons]
    split
    · next dropped => rw [ih, List.flatMap_cons, none x dropped, List.nil_append]
    · rfl

/-- Frames without children hold no leaves, so nothing is lost with them. -/
theorem Cut.leaves_removed (c : Cut) :
    (c.removed.flatMap (·.children)).flatMap Tree.leaves = leavesIn c.above := by
  rw [Cut.removed, flatMap_dropWhile fun f empty => List.isEmpty_iff.1 empty, leavesIn_reverse]

/-- Recovery keeps the leaves. A token that is not tried again is dropped, if it opens a block, or
becomes an error leaf. -/
theorem leaves_recover {again : Bool} {c : Cut} (hw : Whole p) (hs : p.stack = top :: rest)
    (hc : cut? [] p.stack = some c) (alone : c.Alone) (recovers : RecoversTo t p c again q) :
    Whole q ∧
      (again = true ∧ q.leaves = p.leaves ∧ q.blocks = p.blocks ∨
        again = false ∧ t.kind = .indent ∧ q.leaves = p.leaves ∧
          q.blocks = (p.depth :: p.omitted, p.depth) ∨
        again = false ∧ t.kind ≠ .indent ∧ q.leaves = p.leaves ++ [errorLeaf t] ∧
          q.blocks = p.blocks) := by
  have hroot : q.root = none := recovers.root_eq.trans (hw.root hs)
  have before :
      p.leaves = leavesIn (c.fold.container :: c.fold.below) ++ leavesIn c.fold.above := by
    have whole : p.stack = c.stack := (cut?_stack hc).symm
    rw [Parser.leaves, hw.root hs]
    dsimp only
    rw [whole, ← Cut.leaves_fold alone, Cut.stack, leavesIn_append]
  have none (h : c.fold.removed = []) : leavesIn c.fold.above = [] := by
    rw [← Cut.leaves_removed, h]
    rfl
  cases recovers with
  | dropped empty kind =>
    obtain ⟨whole, leaves⟩ := leaves_of_open hroot rfl
    refine ⟨whole, .inr (.inl ⟨rfl, kind, ?_, rfl⟩)⟩
    rw [leaves, before, none empty, List.append_nil]
    rfl
  | misplaced empty kind =>
    obtain ⟨whole, leaves⟩ := leaves_of_open hroot rfl
    refine ⟨whole, .inr (.inr ⟨rfl, kind, ?_, rfl⟩)⟩
    rw [leaves, before, none empty, List.append_nil, Frame.leaves_add, Tree.leaves_leaf,
      leavesIn, List.append_assoc]
  | removed =>
    obtain ⟨whole, leaves⟩ := leaves_of_open hroot rfl
    refine ⟨whole, .inl ⟨rfl, ?_, rfl⟩⟩
    rw [leaves, before, Frame.leaves_add, Tree.leaves_branch, Cut.leaves_removed, leavesIn,
      List.append_assoc]

/-! ## The end -/

theorem leaves_closeAll {n : Nat} (h : Whole p) (hn : p.stack.length ≤ n) :
    ∃ root, (closeAll n p).root = some root ∧ root.leaves = p.leaves := by
  obtain ⟨whole, leaves⟩ : Whole (closeAll n p) ∧ (closeAll n p).leaves = p.leaves := by
    refine closeAll_keeps (P := fun q => Whole q ∧ q.leaves = p.leaves)
      (fun {q top rest} hs none inner h => ?_) (fun _ _ h => ?_) ⟨h, rfl⟩
    · obtain ⟨next, below, rfl⟩ := List.exists_cons_of_ne_nil inner
      obtain ⟨whole, leaves⟩ :=
        leaves_of_open (p := { q with stack := next :: below }) (h.1.root hs) rfl
      refine ⟨whole, ?_⟩
      rw [leaves, ← h.2, h.1.leaves hs, Frame.leaves, Frame.leaves, none, leavesIn, Frame.leaves,
        List.flatMap_nil, List.append_nil]
    · obtain ⟨whole, leaves⟩ := leaves_pop h.1
      exact ⟨whole, leaves.trans h.2⟩
  cases hr : (closeAll n p).root with
  | none => exact absurd (closeAll_stack hn) (whole.1 hr)
  | some root => exact ⟨root, rfl, by rw [← leaves, Parser.leaves, hr]⟩

/-- The tree in the end has the leaves made so far. -/
theorem leaves_finish (h : Whole p) : (p.finish g).root.leaves = p.leaves := by
  obtain ⟨root, hr, hl⟩ := leaves_closeAll h (Nat.le_refl _)
  rw [finish, hr]
  exact hl

end Parser

end Caret

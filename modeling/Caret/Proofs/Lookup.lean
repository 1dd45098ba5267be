import Caret.Completion.Snippet
import Caret.Proofs.Ordering
import Caret.Proofs.Shapes
/-!
# What is found at a position

The leaves of a tree stand in order, so what stands before a place in the tree ends before the place
starts, and every branch above reaches at least as far as the place. Looking for a statement goes
down from the root to the first child that covers the position, as long as this is a container. So a
position behind the start of a place leads towards the place, and ends there or at the outermost
branch on the way that is no container. Where this is a string or a token without a place, nothing
can be completed; but a branch around it hides it.

Results:
* `Focus.whole`: the tree that a place is in.
* `Focus.leavesIn_trees`, `Focus.leavesAmong_split`: the places of leaves, in order.
* `Tree.Formed.start_le`, `Tree.Formed.le_stop`: a tree reaches from its first leaf to its last one.
* `Module.statementAt?_place`: where looking for a statement leads.
* `Completion.unparsable_in_containers`: in a string or in a token without a place there is nothing
  to complete, if only containers are around it.
* `Completion.string_hidden`: a string that an assignment is around.
-/
namespace Caret

/-! ## Places -/

/-- An element of appended lists is in the first of them or in the second. -/
theorem append_eq_append_cons {α : Type} {xs ys front back : List α} {a : α}
    (h : xs ++ ys = front ++ a :: back) : (∃ inner, xs = front ++ a :: inner) ∨
      ∃ inner, front = xs ++ inner ∧ ys = inner ++ a :: back := by
  rcases List.append_eq_append_iff.1 h with ⟨inner, whole, split⟩ | ⟨inner, split, behind⟩
  · exact .inr ⟨inner, whole, split⟩
  · cases inner with
    | nil => exact .inr ⟨[], by rw [split, List.append_nil, List.append_nil], behind.symm⟩
    | cons b inner =>
      obtain ⟨rfl, -⟩ := List.cons.inj behind
      exact .inl ⟨inner, split⟩

namespace Focus

variable {f : Focus} {t : Tree} {crumb : Crumb} {path : List Crumb}

/-- The tree that the place is in. -/
def whole (f : Focus) : Tree := f.path.foldl (fun t crumb => crumb.fill t) f.tree

theorem whole_cons : whole ⟨t, crumb :: path⟩ = whole ⟨crumb.fill t, path⟩ := rfl

theorem whole_append (below above : List Crumb) :
    whole ⟨t, below ++ above⟩ = whole ⟨whole ⟨t, below⟩, above⟩ :=
  List.foldl_append ..

mutual

theorem whole_leavesIn (path : List Crumb) :
    (t : Tree) → ∀ f ∈ leavesIn path t, f.whole = whole ⟨t, path⟩ ∧ ∃ l, f.tree = .leaf l
  | .leaf l => by
    intro f hf
    rw [leavesIn, List.mem_singleton] at hf
    rw [hf]
    exact ⟨rfl, l, rfl⟩
  | .branch rule children => by
    intro f hf
    rw [leavesIn] at hf
    exact whole_leavesAmong rule path [] children f hf

theorem whole_leavesAmong (rule : String) (path : List Crumb) (before : List Tree) :
    (rest : List Tree) → ∀ f ∈ leavesAmong rule path before rest,
      f.whole = whole ⟨.branch rule (before.reverse ++ rest), path⟩ ∧ ∃ l, f.tree = .leaf l
  | [] => by
    intro f hf
    rw [leavesAmong] at hf
    cases hf
  | t :: rest => by
    intro f hf
    rw [leavesAmong] at hf
    rcases List.mem_append.1 hf with hf | hf
    · exact whole_leavesIn _ t f hf
    · have later := whole_leavesAmong rule path (t :: before) rest f hf
      rwa [List.reverse_cons, List.append_assoc, List.singleton_append] at later

end

mutual

/-- The trees of the leaves are the leaves. -/
theorem leavesIn_trees (path : List Crumb) :
    (t : Tree) → (leavesIn path t).map (·.tree) = t.leaves.map .leaf
  | .leaf l => by simp [leavesIn]
  | .branch rule children => by
    rw [leavesIn, leavesAmong_trees rule path [] children, Tree.leaves_branch]

theorem leavesAmong_trees (rule : String) (path : List Crumb) (seen : List Tree) :
    (rest : List Tree) →
      (leavesAmong rule path seen rest).map (·.tree) = (rest.flatMap Tree.leaves).map .leaf
  | [] => rfl
  | t :: rest => by
    rw [leavesAmong, List.map_append, leavesIn_trees _ t, leavesAmong_trees rule path _ rest,
      List.flatMap_cons, List.map_append]

end

/-- The leaves of the children before a child, those of the child with their ways up, and others. -/
theorem leavesAmong_split (rule : String) (path : List Crumb) (seen passed : List Tree) (c : Tree)
    (rest : List Tree) : ∃ front back, leavesAmong rule path seen (passed ++ c :: rest) =
      front ++ (leavesIn (⟨rule, passed.reverse ++ seen, rest⟩ :: path) c ++ back) ∧
        front.map (·.tree) = (passed.flatMap Tree.leaves).map .leaf := by
  induction passed generalizing seen with
  | nil =>
    refine ⟨[], leavesAmong rule path (c :: seen) rest, ?_, rfl⟩
    rw [List.nil_append, leavesAmong]
    rfl
  | cons t passed ih =>
    obtain ⟨front, back, split, trees⟩ := ih (t :: seen)
    refine ⟨leavesIn (⟨rule, seen, passed ++ c :: rest⟩ :: path) t ++ front, back, ?_, ?_⟩
    · rw [List.cons_append, leavesAmong, split, List.append_assoc]
      simp
    · rw [List.map_append, trees, leavesIn_trees, List.flatMap_cons, List.map_append]

/-- The leaves of a tree are places in it. -/
theorem whole_of_mem_leaves {root : Tree} (h : f ∈ (Focus.root root).leaves) :
    f.whole = root ∧ ∃ l, f.tree = .leaf l :=
  whole_leavesIn [] root f h

end Focus

/-! ## Where trees start and end -/

namespace Tree

variable {g : Grammar} {t : Tree}

@[simp] theorem start_leaf (l : Leaf) : (leaf l).start = l.start := by simp [start, firstLeaf?]

@[simp] theorem stop_leaf (l : Leaf) : (leaf l).stop = l.stop := by simp [stop, lastLeaf?]

/-- A formed tree starts with its first leaf. -/
theorem Formed.start_eq (h : t.Formed g) : ∃ l, t.leaves.head? = some l ∧ t.start = l.start := by
  induction h with
  | leaf l => exact ⟨l, by simp, start_leaf l⟩
  | @branch rule children _ some _ ih =>
    obtain ⟨c, rest, rfl⟩ := List.exists_cons_of_ne_nil some
    obtain ⟨l, first, same⟩ := ih c List.mem_cons_self
    refine ⟨l, ?_, ?_⟩
    · rw [leaves_branch, List.flatMap_cons, List.head?_append, first]
      rfl
    · rw [start, firstLeaf?, firstLeafOf?]
      exact same

theorem lastLeafOf?_concat (ts : List Tree) (t : Tree) : lastLeafOf? (ts ++ [t]) = t.lastLeaf? := by
  induction ts with
  | nil => rw [List.nil_append, lastLeafOf?]
  | cons u ts ih =>
    obtain ⟨v, more, hv⟩ := List.exists_cons_of_ne_nil (List.append_ne_nil_of_right_ne_nil ts
      (List.cons_ne_nil t []))
    rw [List.cons_append, hv, lastLeafOf?, ← hv, ih]
    simp

/-- A formed tree ends with its last leaf. -/
theorem Formed.stop_eq (h : t.Formed g) : ∃ l, t.leaves.getLast? = some l ∧ t.stop = l.stop := by
  induction h with
  | leaf l => exact ⟨l, by simp, stop_leaf l⟩
  | @branch rule children _ some _ ih =>
    obtain ⟨front, c, rfl⟩ := List.eq_nil_or_concat children |>.resolve_left some
    obtain ⟨l, last, same⟩ := ih c (by simp)
    refine ⟨l, ?_, ?_⟩
    · rw [leaves_branch, List.concat_eq_append, List.flatMap_append, List.flatMap_singleton,
        List.getLast?_append, last]
      rfl
    · rw [stop, lastLeaf?, List.concat_eq_append, lastLeafOf?_concat]
      exact same

/-- No leaf of a tree starts before the tree. -/
theorem Formed.start_le (h : t.Formed g) (ordered : t.leaves.Pairwise Leaf.Before) :
    ∀ l ∈ t.leaves, t.start ≤ l.start := by
  obtain ⟨first, head, start⟩ := h.start_eq
  obtain ⟨rest, leaves⟩ := List.head?_eq_some_iff.1 head
  rw [leaves] at ordered ⊢
  intro l hl
  rw [start]
  rcases List.mem_cons.1 hl with rfl | hl
  · exact Position.le_refl _
  · exact Position.le_trans first.start_le_stop ((List.pairwise_cons.1 ordered).1 l hl)

/-- No leaf of a tree ends behind the tree. -/
theorem Formed.le_stop (h : t.Formed g) (ordered : t.leaves.Pairwise Leaf.Before) :
    ∀ l ∈ t.leaves, l.stop ≤ t.stop := by
  obtain ⟨last, tail, stop⟩ := h.stop_eq
  obtain ⟨front, leaves⟩ := List.getLast?_eq_some_iff.1 tail
  rw [leaves] at ordered ⊢
  intro l hl
  rw [stop]
  rcases List.mem_append.1 hl with hl | hl
  · have before := (List.pairwise_append.1 ordered).2.2 l hl last List.mem_cons_self
    exact Position.le_trans before last.start_le_stop
  · rw [List.mem_singleton.1 hl]
    exact Position.le_refl _

theorem Formed.start_le_stop (h : t.Formed g) (ordered : t.leaves.Pairwise Leaf.Before) :
    t.start ≤ t.stop := by
  obtain ⟨first, head, start⟩ := h.start_eq
  rw [start]
  exact Position.le_trans first.start_le_stop
    (h.le_stop ordered first (List.mem_of_mem_head? head))

/-- A tree ends before another one starts if its leaves stand before those of the other. -/
theorem Formed.stop_le_start {s : Tree} (hs : s.Formed g) (ht : t.Formed g)
    (before : ∀ l ∈ s.leaves, ∀ m ∈ t.leaves, l.Before m) : s.stop ≤ t.start := by
  obtain ⟨first, head, start⟩ := ht.start_eq
  obtain ⟨last, tail, stop⟩ := hs.stop_eq
  rw [start, stop]
  exact before last (List.mem_of_getLast? tail) first (List.mem_of_mem_head? head)

theorem covers_iff {pos : Position} : t.covers pos = true ↔ t.start ≤ pos ∧ pos ≤ t.stop := by
  simp [covers]

end Tree

/-! ## Trees around a place -/

namespace Focus

variable {g : Grammar} {f : Focus} {t : Tree} {crumb : Crumb} {path : List Crumb}

/-- What is in a formed tree is formed. -/
theorem formed (h : f.whole.Formed g) : f.tree.Formed g := by
  obtain ⟨t, path⟩ := f
  induction path generalizing t with
  | nil => exact h
  | cons crumb path ih =>
    have above : (crumb.fill t).Formed g := ih (crumb.fill t) h
    cases above with
    | branch _ _ children => exact children t (by simp)

theorem leaves_fill : (crumb.fill t).leaves =
    crumb.before.reverse.flatMap Tree.leaves ++ (t.leaves ++ crumb.after.flatMap Tree.leaves) := by
  simp [Crumb.fill]

/-- What is in a tree with leaves in order has its leaves in order. -/
theorem ordered (h : f.whole.leaves.Pairwise Leaf.Before) : f.tree.leaves.Pairwise Leaf.Before := by
  obtain ⟨t, path⟩ := f
  induction path generalizing t with
  | nil => exact h
  | cons crumb path ih =>
    have above := ih (crumb.fill t) h
    rw [leaves_fill] at above
    exact (List.pairwise_append.1 (List.pairwise_append.1 above).2.1).1

/-- The leaves of a place are leaves of the tree that it is in. -/
theorem subset_whole (f : Focus) : f.tree.leaves ⊆ f.whole.leaves := by
  obtain ⟨t, path⟩ := f
  induction path generalizing t with
  | nil => exact List.Subset.refl _
  | cons crumb path ih =>
    refine List.Subset.trans ?_ (ih (crumb.fill t))
    rw [leaves_fill]
    intro l hl
    exact List.mem_append_right _ (List.mem_append_left _ hl)

/-- A branch reaches at least as far as a child. -/
theorem fill_reaches (formed : (crumb.fill t).Formed g)
    (ordered : (crumb.fill t).leaves.Pairwise Leaf.Before) :
    (crumb.fill t).start ≤ t.start ∧ t.stop ≤ (crumb.fill t).stop := by
  have inner : t.Formed g := by
    cases formed with
    | branch _ _ children => exact children t (by simp)
  obtain ⟨first, head, start⟩ := inner.start_eq
  obtain ⟨last, tail, stop⟩ := inner.stop_eq
  rw [start, stop]
  constructor
  · apply formed.start_le ordered
    rw [leaves_fill]
    simp [List.mem_of_mem_head? head]
  · apply formed.le_stop ordered
    rw [leaves_fill]
    simp [List.mem_of_getLast? tail]

/-- A child ends before the next one starts. -/
theorem before_fill (formed : (crumb.fill t).Formed g)
    (ordered : (crumb.fill t).leaves.Pairwise Leaf.Before) :
    ∀ s ∈ crumb.before, s.stop ≤ t.start := by
  intro s hs
  have children : s.Formed g ∧ t.Formed g := by
    cases formed with
    | branch _ _ children => exact ⟨children s (by simp [hs]), children t (by simp)⟩
  rw [leaves_fill] at ordered
  refine children.1.stop_le_start children.2 fun l hl m hm => ?_
  refine (List.pairwise_append.1 ordered).2.2 l ?_ m (List.mem_append_left _ hm)
  exact List.mem_flatMap.2 ⟨s, List.mem_reverse.2 hs, hl⟩

end Focus

/-! ## Looking for a statement -/

namespace Module

variable {g : Grammar} {m : Module} {pos : Position} {f : Focus} {t : Tree} {rule : String}
  {path : List Crumb} {before rest : List Tree}

/-- Looking for a statement goes on in containers and ends elsewhere. -/
def enter? (pos : Position) (f : Focus) : Option Focus :=
  if !f.tree.isLeaf && containers.contains f.tree.title then statementIn? pos f.path f.tree
  else some f

theorem statementAmong?_covers (h : t.covers pos = true) :
    statementAmong? pos rule path before (t :: rest) =
      enter? pos ⟨t, ⟨rule, before, rest⟩ :: path⟩ := by
  rw [statementAmong?, if_pos h]
  rfl

/-- Children that do not cover the position are passed. -/
theorem statementAmong?_skip {passed : List Tree} (h : ∀ s ∈ passed, s.covers pos = false) :
    statementAmong? pos rule path before (passed ++ rest) =
      statementAmong? pos rule path (passed.reverse ++ before) rest := by
  induction passed generalizing before with
  | nil => rfl
  | cons s passed ih =>
    have not : ¬ s.covers pos = true := by simp [h s List.mem_cons_self]
    rw [List.cons_append, statementAmong?, if_neg not,
      ih fun u hu => h u (List.mem_cons_of_mem _ hu)]
    simp

/-- A position behind the start of a place, and not behind its end, leads to the place if there are
only containers around it. -/
theorem statementAt?_enter (formed : m.root.Formed g)
    (ordered : m.root.leaves.Pairwise Leaf.Before) (hf : f.whole = m.root) (inside : f.path ≠ [])
    (around : ∀ crumb ∈ f.path.dropLast, crumb.rule ∈ containers) (after : f.tree.start < pos)
    (upTo : pos ≤ f.tree.stop) : m.statementAt? pos = enter? pos f := by
  obtain ⟨t, path⟩ := f
  induction path generalizing t with
  | nil => exact absurd rfl inside
  | cons crumb path ih =>
    have above : (crumb.fill t).Formed g := Focus.formed (f := ⟨crumb.fill t, path⟩) (hf ▸ formed)
    have sorted : (crumb.fill t).leaves.Pairwise Leaf.Before :=
      Focus.ordered (f := ⟨crumb.fill t, path⟩) (hf ▸ ordered)
    obtain ⟨earlier, later⟩ := Focus.fill_reaches above sorted
    have within : (crumb.fill t).start < pos ∧ pos ≤ (crumb.fill t).stop := by
      simp only [Position.le_def, Position.lt_def] at earlier later after upTo ⊢
      omega
    -- the way down to the branch above
    have down : m.statementAt? pos = statementIn? pos path (crumb.fill t) := by
      cases path with
      | nil =>
        rw [statementAt?, ← hf]
        rfl
      | cons next path =>
        have container : crumb.rule ∈ containers := around crumb List.mem_cons_self
        rw [ih (crumb.fill t) hf (List.cons_ne_nil _ _)
          (fun c hc => around c (List.mem_cons_of_mem _ hc)) within.1 within.2, enter?, if_pos]
        simpa [Crumb.fill, Tree.isLeaf, Tree.title] using container
    have passed : ∀ s ∈ crumb.before.reverse, s.covers pos = false := by
      intro s hs
      have ends := Focus.before_fill above sorted s (List.mem_reverse.1 hs)
      rw [← Bool.not_eq_true, Tree.covers_iff]
      intro covers
      simp only [Position.le_def, Position.lt_def] at ends covers after
      omega
    have here : t.covers pos = true := by
      rw [Tree.covers_iff]
      simp only [Position.le_def, Position.lt_def] at after upTo ⊢
      omega
    rw [down, Crumb.fill, statementIn?, statementAmong?_skip passed, statementAmong?_covers here]
    simp

/-- A position behind the start of a place that is no container leads there, if there are only
containers around it. -/
theorem statementAt?_place (formed : m.root.Formed g)
    (ordered : m.root.leaves.Pairwise Leaf.Before) (hf : f.whole = m.root) (inside : f.path ≠ [])
    (around : ∀ crumb ∈ f.path.dropLast, crumb.rule ∈ containers) (after : f.tree.start < pos)
    (upTo : pos ≤ f.tree.stop) (stops : f.tree.isLeaf = true ∨ f.tree.title ∉ containers) :
    m.statementAt? pos = some f := by
  rw [statementAt?_enter formed ordered hf inside around after upTo, enter?, if_neg]
  rcases stops with leaf | title
  · simp [leaf]
  · simp [title]

/-- Around a place below the root there are only containers, or there is an outermost branch that is
none. -/
theorem around_cases (path : List Crumb) :
    (∀ crumb ∈ path.dropLast, crumb.rule ∈ containers) ∨
      ∃ below crumb above, path = below ++ crumb :: above ∧ crumb.rule ∉ containers ∧
        above ≠ [] ∧ ∀ c ∈ above.dropLast, c.rule ∈ containers := by
  induction path with
  | nil => exact .inl (by simp)
  | cons crumb path ih =>
    rcases ih with all | ⟨below, c, above, rfl, stops, inside, all⟩
    · by_cases bottom : path = []
      · subst bottom
        exact .inl (by simp)
      by_cases container : crumb.rule ∈ containers
      · refine .inl fun c hc => ?_
        rw [List.dropLast_cons_of_ne_nil bottom] at hc
        rcases List.mem_cons.1 hc with rfl | hc
        · exact container
        · exact all c hc
      · exact .inr ⟨[], crumb, path, rfl, container, bottom, all⟩
    · exact .inr ⟨crumb :: below, c, above, rfl, stops, inside, all⟩

end Module

/-! ## Strings and tokens without a place -/

namespace Completion

variable {g : Grammar} {m : Module} {pos : Position} {place : Focus}

/-- No rule is named like a kind of leaf that completion asks for. -/
def NamesApart (g : Grammar) : Prop :=
  ∀ r ∈ g.rules, r.name ∉ ["indent", "dedent", "error_leaf", "string"]

/-- A formed branch is not named like such a leaf. -/
theorem NamesApart.branch {rule : String} {children : List Tree} (apart : NamesApart g)
    (formed : (Tree.branch rule children).Formed g) :
    rule ∉ ["indent", "dedent", "error_leaf", "string"] := by
  cases formed with
  | branch named =>
    rcases named with named | ⟨r, hr, named⟩
    · rw [named]
      decide
    · rw [← named]
      exact apart r hr

/-- What `locate` answers behind the start of the statement that was found. -/
theorem locate_statement (found : m.statementAt? pos = some place) (after : place.tree.start < pos)
    (title : place.tree.title ∉ ["indent", "dedent"]) :
    locate m pos = if place.tree.title ∈ ["error_leaf", "string"]
      then .error (.unparsableContext place.tree.title pos) else .ok (.node place) := by
  have inside : ¬ pos ≤ place.tree.start := fun h => by
    simp only [Position.le_def, Position.lt_def] at h after
    omega
  simp only [List.mem_cons, List.not_mem_nil, or_false, not_or] at title ⊢
  unfold locate placeAt
  simp [found, title, inside]

/-- In a leaf that is a string or has no place there is nothing to complete, if only containers are
around the leaf; else the outermost branch around it that is no container is what is found. -/
theorem locate_leaf (formed : m.root.Formed g) (apart : NamesApart g)
    (ordered : m.root.leaves.Pairwise Leaf.Before) (inner : m.root.isLeaf = false)
    (hf : place ∈ (Focus.root m.root).leaves) {l : Leaf} (leaf : place.tree = .leaf l)
    (kind : l.kind = .string ∨ ∃ kind, l.kind = .error kind) (after : l.start < pos)
    (before : pos < l.stop) :
    (∀ crumb ∈ place.path.dropLast, crumb.rule ∈ Module.containers) ∧
        locate m pos = .error (.unparsableContext l.kind.title pos) ∨
      ∃ below crumb above, place.path = below ++ crumb :: above ∧
        crumb.rule ∉ Module.containers ∧ (above ≠ [] ∧
        ∀ c ∈ above.dropLast, c.rule ∈ Module.containers) ∧
        locate m pos = .ok (.node ⟨crumb.fill (Focus.whole ⟨place.tree, below⟩), above⟩) := by
  obtain ⟨whole, -⟩ := Focus.whole_of_mem_leaves hf
  have start : place.tree.start = l.start := by rw [leaf]; rfl
  have stop : place.tree.stop = l.stop := by rw [leaf]; rfl
  have upTo : pos ≤ l.stop := by
    simp only [Position.le_def, Position.lt_def] at before ⊢
    omega
  rcases Module.around_cases place.path with all | ⟨below, crumb, above, path, stops, inside, all⟩
  · refine .inl ⟨all, ?_⟩
    have under : place.path ≠ [] := by
      intro root
      rw [Focus.whole, root, leaf] at whole
      rw [← whole] at inner
      cases inner
    have title : place.tree.title = l.kind.title := by rw [leaf]; rfl
    have found := Module.statementAt?_place formed ordered whole under all (start ▸ after)
      (stop ▸ upTo) (.inl (by rw [leaf]; rfl))
    rcases kind with kind | ⟨kind, error⟩
    · rw [locate_statement found (start ▸ after) (by rw [title, kind]; decide), title, kind]
      rfl
    · rw [locate_statement found (start ▸ after) (by rw [title, error]; simp [LeafKind.title]),
        title, error]
      rfl
  · refine .inr ⟨below, crumb, above, path, stops, ⟨inside, all⟩, ?_⟩
    -- the branch reaches at least as far as the leaf
    let branch : Focus := ⟨crumb.fill (Focus.whole ⟨place.tree, below⟩), above⟩
    have around : branch.whole = m.root := by
      rw [← whole, ← Focus.whole_cons, ← Focus.whole_append, ← path]
    have shape : branch.tree.Formed g := Focus.formed (around ▸ formed)
    have sorted : branch.tree.leaves.Pairwise Leaf.Before := Focus.ordered (around ▸ ordered)
    have member : l ∈ branch.tree.leaves := by
      have own : l ∈ place.tree.leaves := by simp [leaf]
      have here := Focus.subset_whole ⟨place.tree, below ++ [crumb]⟩ own
      rwa [Focus.whole_append] at here
    have first := shape.start_le sorted l member
    have last := shape.le_stop sorted l member
    have within : branch.tree.start < pos ∧ pos ≤ branch.tree.stop := by
      simp only [Position.le_def, Position.lt_def] at first last after upTo ⊢
      omega
    have found := Module.statementAt?_place formed ordered around inside all within.1 within.2
      (.inr stops)
    have named := apart.branch shape
    simp only [List.mem_cons, List.not_mem_nil, or_false, not_or] at named
    have title : branch.tree.title = crumb.rule := rfl
    rw [locate_statement found within.1 (by simp [title, named]), if_neg (by simp [title, named])]

theorem stackAt_error {source : Text} {e : CompletionError} (h : locate m pos = .error e) :
    stackAt g source m pos = .error e := by
  rw [stackAt, snippetAt, h]
  rfl

theorem python_namesApart : NamesApart Grammar.pythonTables := by
  have names : ∀ r ∈ Grammar.pythonTables.rules.toList,
      r.name ∉ ["indent", "dedent", "error_leaf", "string"] := by
    decide +kernel
  exact fun r hr => names r (Array.mem_toList_iff.2 hr)

/-- In a parsed source take any leaf that is a string or has no place, and a position inside the
leaf. If only containers are around the leaf, there is nothing to complete; else the position
belongs to the outermost branch around it that is no container. -/
theorem unparsable_in_containers (source : Text) : ∃ g m, Grammar.python = .ok g ∧
    Module.parse g source = .ok m ∧
      ∀ place ∈ (Focus.root m.root).leaves, ∀ l, place.tree = .leaf l →
      (l.kind = .string ∨ ∃ kind, l.kind = .error kind) → ∀ pos, l.start < pos → pos < l.stop →
      ((∀ crumb ∈ place.path.dropLast, crumb.rule ∈ Module.containers) ∧
          locate m pos = .error (.unparsableContext l.kind.title pos) ∧
          stackAt g source m pos = .error (.unparsableContext l.kind.title pos)) ∨
        ∃ below crumb above, place.path = below ++ crumb :: above ∧
          crumb.rule ∉ Module.containers ∧ (above ≠ [] ∧
          ∀ c ∈ above.dropLast, c.rule ∈ Module.containers) ∧
          locate m pos = .ok (.node ⟨crumb.fill (Focus.whole ⟨place.tree, below⟩), above⟩) := by
  have ok := Grammar.python_consistent
  have lay := Grammar.python_layered
  obtain ⟨m, parsed, -⟩ := Module.parse_of_layered ok lay source
  obtain ⟨formed, children, root⟩ := Module.parse_formed ok lay Grammar.python_sealed parsed
  have ordered := Module.leaves_ordered ok lay parsed
  refine ⟨_, m, Grammar.python_eq, parsed, ?_⟩
  intro place hf l leaf kind pos after before
  rcases locate_leaf formed python_namesApart ordered (by rw [root]; rfl) hf leaf kind after before
    with ⟨around, located⟩ | hidden
  · exact .inl ⟨around, located, stackAt_error located⟩
  · exact .inr hidden

/-- The leaves of a kind that the position is inside of. -/
def leavesAround (m : Module) (kind : LeafKind) (pos : Position) : List Focus :=
  (Focus.root m.root).leaves.filter fun place => place.tree.leaf?.any fun l =>
    l.kind == kind && decide (l.start < pos) && decide (pos < l.stop)

theorem mem_leavesAround {kind : LeafKind} (h : place ∈ leavesAround m kind pos) :
    place ∈ (Focus.root m.root).leaves ∧
      ∃ l, place.tree = .leaf l ∧ l.kind = kind ∧ l.start < pos ∧ pos < l.stop := by
  obtain ⟨member, around⟩ := List.mem_filter.1 h
  refine ⟨member, ?_⟩
  cases leaf : place.tree with
  | leaf l =>
    rw [leaf] at around
    simp only [Tree.leaf?, Option.any_some, Bool.and_eq_true, beq_iff_eq,
      decide_eq_true_eq] at around
    exact ⟨l, rfl, around.1.1, around.1.2, around.2⟩
  | branch rule children =>
    rw [leaf] at around
    cases around

/-- In a string that is the whole condition of an `if` statement. -/
theorem unparsable_condition : ∃ g m, Grammar.python = .ok g ∧
    Module.parse g "if \"abc\":\n    x\n".toList = .ok m ∧
    (∃ place ∈ (Focus.root m.root).leaves, ∃ l, place.tree = .leaf l ∧ l.kind = .string ∧
      l.start < ⟨1, 5⟩ ∧ ⟨1, 5⟩ < l.stop) ∧
    stackAt g "if \"abc\":\n    x\n".toList m ⟨1, 5⟩ =
      .error (.unparsableContext "string" ⟨1, 5⟩) := by
  obtain ⟨g, m, python, parsed, answers⟩ :=
    unparsable_in_containers "if \"abc\":\n    x\n".toList
  obtain rfl : Grammar.pythonTables = g := by
    rw [Grammar.python_eq] at python
    exact Except.ok.inj python
  have found : (Module.parse Grammar.pythonTables "if \"abc\":\n    x\n".toList).toOption.any
      (fun m => (leavesAround m .string ⟨1, 5⟩).any fun place =>
        place.path.dropLast.all fun crumb => Module.containers.contains crumb.rule) = true := by
    decide +kernel
  rw [parsed] at found
  obtain ⟨place, hplace, around⟩ := List.any_eq_true.1 found
  obtain ⟨member, l, leaf, kind, after, before⟩ := mem_leavesAround hplace
  refine ⟨_, m, python, parsed, ⟨place, member, l, leaf, kind, after, before⟩, ?_⟩
  rcases answers place member l leaf (.inl kind) _ after before with
    ⟨-, -, stack⟩ | ⟨below, crumb, above, path, stops, ⟨inside, -⟩, -⟩
  · rw [stack, kind]
    rfl
  · have between : crumb ∈ place.path.dropLast := by
      rw [path, List.dropLast_append_of_ne_nil (List.cons_ne_nil _ _),
        List.dropLast_cons_of_ne_nil inside]
      simp
    exact absurd (by simpa using List.all_eq_true.1 around crumb between) stops

/-- In a string on the right of an assignment the position belongs to the assignment. -/
theorem string_hidden : ∃ g m, Grammar.python = .ok g ∧
    Module.parse g "x = \"abc\"\n".toList = .ok m ∧
    (∃ place ∈ (Focus.root m.root).leaves, ∃ l, place.tree = .leaf l ∧ l.kind = .string ∧
      l.start < ⟨1, 7⟩ ∧ ⟨1, 7⟩ < l.stop) ∧
    ∃ place, locate m ⟨1, 7⟩ = .ok (.node place) ∧ place.tree.title = "expr_stmt" := by
  have computed : (Module.parse Grammar.pythonTables "x = \"abc\"\n".toList).toOption.any (fun m =>
      !(leavesAround m .string ⟨1, 7⟩).isEmpty && match locate m ⟨1, 7⟩ with
        | .ok (.node place) => place.tree.title == "expr_stmt"
        | _ => false) = true := by
    decide +kernel
  obtain ⟨m, parsed, -⟩ := Module.parse_of_layered Grammar.python_consistent
    Grammar.python_layered "x = \"abc\"\n".toList
  rw [parsed] at computed
  obtain ⟨around, located⟩ := Bool.and_eq_true_iff.1 computed
  obtain ⟨place, hplace⟩ := List.exists_mem_of_ne_nil (leavesAround m .string ⟨1, 7⟩)
    (by simpa using around)
  obtain ⟨member, leaf⟩ := mem_leavesAround hplace
  refine ⟨_, m, Grammar.python_eq, parsed, ⟨place, member, leaf⟩, ?_⟩
  split at located
  · next place' found => exact ⟨place', found, by simpa using located⟩
  · cases located

end Completion

end Caret

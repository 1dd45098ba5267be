import Caret.Proofs.Bisection
/-!
# What stands before a position

A position at the start of a construct belongs to what stands before the construct. The lookup takes
two steps for this: if what it finds does not start before the position, it goes on from the leaf
before. All children that the lookup passes end before the position, and so does that leaf; what is
around the start of the leaf then starts before the position too.

Results:
* `Focus.around_start`, `Focus.leaves_before`: the leaves before a place.
* `Focus.previousLeaf?_eq`: the leaf before a place is the last of them.
* `Module.statementAt?_ok`: the children that looking for a statement has passed.
* `Completion.locate_before`: what is located starts before the position, or comes first.
-/
namespace Caret

/-! ## Leaves before a place -/

namespace Focus

variable {g : Grammar} {f p : Focus} {t : Tree} {crumb : Crumb} {path : List Crumb}

/-- The leaves before a place, from the way up. -/
def leavesBefore : List Crumb → List Leaf
  | [] => []
  | crumb :: path => leavesBefore path ++ crumb.before.reverse.flatMap Tree.leaves

/-- The leaves of a tree are those before a place in it, those of the place and others. -/
theorem whole_leaves (f : Focus) :
    ∃ behind, f.whole.leaves = leavesBefore f.path ++ (f.tree.leaves ++ behind) := by
  obtain ⟨t, path⟩ := f
  induction path generalizing t with
  | nil => exact ⟨[], by simp [whole, leavesBefore]⟩
  | cons crumb path ih =>
    obtain ⟨behind, split⟩ := ih (crumb.fill t)
    refine ⟨crumb.after.flatMap Tree.leaves ++ behind, ?_⟩
    rw [whole_cons, split, leaves_fill, leavesBefore]
    simp

theorem mem_leavesBefore {l : Leaf} (h : l ∈ leavesBefore path) :
    ∃ crumb ∈ path, ∃ s ∈ crumb.before, l ∈ s.leaves := by
  induction path with
  | nil => cases h
  | cons crumb path ih =>
    rcases List.mem_append.1 h with h | h
    · obtain ⟨c, hc, s, hs, hl⟩ := ih h
      exact ⟨c, List.mem_cons_of_mem _ hc, s, hs, hl⟩
    · obtain ⟨s, hs, hl⟩ := List.mem_flatMap.1 h
      exact ⟨crumb, List.mem_cons_self, s, List.mem_reverse.1 hs, hl⟩

/-- The leaves before a place end before it starts, and the others start there or behind. -/
theorem around_start (formed : f.whole.Formed g) (ordered : f.whole.leaves.Pairwise Leaf.Before) :
    ∃ behind, f.whole.leaves = leavesBefore f.path ++ (f.tree.leaves ++ behind) ∧
      (∀ l ∈ leavesBefore f.path, l.stop ≤ f.tree.start) ∧
      ∀ l ∈ f.tree.leaves ++ behind, f.tree.start ≤ l.start := by
  obtain ⟨behind, split⟩ := f.whole_leaves
  obtain ⟨first, head, start⟩ := (Focus.formed formed).start_eq
  obtain ⟨more, leaves⟩ := List.head?_eq_some_iff.1 head
  rw [split, List.pairwise_append, leaves, List.cons_append, List.pairwise_cons] at ordered
  obtain ⟨-, ⟨later, -⟩, before⟩ := ordered
  refine ⟨behind, split, fun l hl => start ▸ before l hl first List.mem_cons_self, ?_⟩
  rw [leaves, List.cons_append, start]
  refine List.forall_mem_cons.2 ⟨Position.le_refl _, fun l hl => ?_⟩
  exact Position.le_trans first.start_le_stop (later l hl)

/-- The children before a place, and before the branches above it, are formed and their leaves in
order. -/
theorem sibling (formed : f.whole.Formed g) (ordered : f.whole.leaves.Pairwise Leaf.Before) :
    ∀ crumb ∈ f.path, ∀ s ∈ crumb.before, s.Formed g ∧ s.leaves.Pairwise Leaf.Before := by
  obtain ⟨t, path⟩ := f
  induction path generalizing t with
  | nil => simp
  | cons crumb path ih =>
    refine List.forall_mem_cons.2 ⟨fun s hs => ?_, ih (crumb.fill t) formed ordered⟩
    have above : (crumb.fill t).Formed g := Focus.formed (f := ⟨crumb.fill t, path⟩) formed
    have sorted := Focus.ordered (f := ⟨crumb.fill t, path⟩) ordered
    rw [leaves_fill, List.pairwise_append, List.pairwise_flatMap] at sorted
    cases above with
    | branch _ _ children => exact ⟨children s (by simp [hs]), sorted.1.1 s (by simpa using hs)⟩

mutual

/-- In document order, the leaves that come before a leaf are those before its place. -/
theorem leavesIn_before (path : List Crumb) : (t : Tree) → ∀ front f back,
    leavesIn path t = front ++ f :: back →
      (leavesBefore f.path).map .leaf = (leavesBefore path).map .leaf ++ front.map (·.tree)
  | .leaf l => by
    intro front f back h
    rw [leavesIn, eq_comm, List.append_eq_singleton_iff] at h
    rcases h with ⟨rfl, h⟩ | ⟨-, h⟩
    · obtain ⟨rfl, -⟩ := List.cons.inj h
      simp
    · cases h
  | .branch rule children => by
    intro front f back h
    rw [leavesIn] at h
    simpa using leavesAmong_before rule path [] children front f back h

theorem leavesAmong_before (rule : String) (path : List Crumb) (seen : List Tree) :
    (rest : List Tree) → ∀ front f back, leavesAmong rule path seen rest = front ++ f :: back →
      (leavesBefore f.path).map .leaf =
        (leavesBefore path ++ seen.reverse.flatMap Tree.leaves).map .leaf ++ front.map (·.tree)
  | [] => by
    intro front f back h
    simp [leavesAmong] at h
  | t :: rest => by
    intro front f back h
    rw [leavesAmong] at h
    rcases append_eq_append_cons h with ⟨inner, here⟩ | ⟨inner, rfl, later⟩
    · exact leavesIn_before (⟨rule, seen, rest⟩ :: path) t front f inner here
    · rw [leavesAmong_before rule path (t :: seen) rest inner f back later]
      simp [leavesIn_trees]

end

/-- In document order, the leaves that come before a leaf are those before its place. -/
theorem leaves_before {root : Tree} {front back : List Focus}
    (h : (Focus.root root).leaves = front ++ f :: back) :
    (leavesBefore f.path).map .leaf = front.map (·.tree) := by
  simpa [leavesBefore] using leavesIn_before [] root front f back h

/-! ## The leaf before a place -/

theorem lastLeafAmong?_concat (rule : String) (path : List Crumb) (before ts : List Tree)
    (t : Tree) : lastLeafAmong? rule path before (ts ++ [t]) =
      lastLeafIn? (⟨rule, ts.reverse ++ before, []⟩ :: path) t := by
  induction ts generalizing before with
  | nil => rw [List.nil_append, lastLeafAmong?]; rfl
  | cons u ts ih =>
    obtain ⟨v, more, hv⟩ := List.exists_cons_of_ne_nil (List.append_ne_nil_of_right_ne_nil ts
      (List.cons_ne_nil t []))
    rw [List.cons_append, hv, lastLeafAmong?, ← hv, ih]
    · simp
    · simp

/-- The last leaf of a tree, as a place. -/
theorem lastLeafIn?_ok (formed : t.Formed g) (path : List Crumb) :
    ∃ p l, lastLeafIn? path t = some p ∧ p.whole = whole ⟨t, path⟩ ∧ p.tree = .leaf l ∧
      t.leaves.getLast? = some l := by
  induction formed generalizing path with
  | leaf l => exact ⟨⟨.leaf l, path⟩, l, by rw [lastLeafIn?], rfl, rfl, by simp⟩
  | @branch rule children _ some _ ih =>
    obtain ⟨front, c, rfl⟩ := List.eq_nil_or_concat children |>.resolve_left some
    rw [List.concat_eq_append] at ih ⊢
    obtain ⟨p, l, found, whole, tree, last⟩ :=
      ih c (by simp) (⟨rule, front.reverse ++ [], []⟩ :: path)
    refine ⟨p, l, ?_, ?_, tree, ?_⟩
    · rw [lastLeafIn?, lastLeafAmong?_concat, found]
    · rw [whole, whole_cons]
      simp [Crumb.fill]
    · rw [Tree.leaves_branch, List.flatMap_append, List.flatMap_singleton, List.getLast?_append,
        last]
      rfl

/-- The leaf before a place is the last of the leaves before it, if there are any. -/
theorem previousLeaf?_eq (formed : f.whole.Formed g) :
    f.previousLeaf?.map (·.tree) = (leavesBefore f.path).getLast?.map .leaf ∧
      ∀ p, f.previousLeaf? = some p → p.whole = f.whole := by
  obtain ⟨t, path⟩ := f
  unfold previousLeaf?
  dsimp only
  induction path generalizing t with
  | nil => simp [previousLeafFrom?, leavesBefore]
  | cons crumb path ih =>
    have above : (crumb.fill t).Formed g := Focus.formed (f := ⟨crumb.fill t, path⟩) formed
    rw [previousLeafFrom?, leavesBefore]
    split
    · next first =>
      rw [first, whole_cons]
      simpa using ih (crumb.fill t) formed
    · next sibling before split =>
      have inner : sibling.Formed g := by
        cases above with
        | branch _ _ children => exact children sibling (by simp [split])
      obtain ⟨p, l, found, whole, tree, last⟩ :=
        lastLeafIn?_ok inner (⟨crumb.rule, before, t :: crumb.after⟩ :: path)
      rw [found, split, List.reverse_cons, List.flatMap_append, List.flatMap_singleton,
        ← List.append_assoc, List.getLast?_append, last]
      refine ⟨by simp [tree], fun q hq => ?_⟩
      cases hq
      rw [whole, whole_cons, whole_cons]
      simp [Crumb.fill, split]

end Focus

/-! ## Children that are passed -/

namespace Module

variable {g : Grammar} {m : Module} {source : Text} {pos : Position} {f : Focus}

/-- No child before the way up covers the position. -/
def Passed (pos : Position) (path : List Crumb) : Prop :=
  ∀ crumb ∈ path, ∀ s ∈ crumb.before, s.covers pos = false

mutual

/-- A statement that is found is a place in the tree and covers the position, and the children
before it were passed. -/
theorem statementIn?_ok (path : List Crumb) (outer : Passed pos path) : (t : Tree) →
    ∀ f, statementIn? pos path t = some f →
      f.whole = Focus.whole ⟨t, path⟩ ∧ f.tree.covers pos = true ∧ Passed pos f.path
  | .leaf l => by
    intro f hf
    rw [statementIn?] at hf
    cases hf
  | .branch rule children => by
    intro f hf
    rw [statementIn?] at hf
    exact statementAmong?_ok rule path outer [] (by simp) children f hf

theorem statementAmong?_ok (rule : String) (path : List Crumb) (outer : Passed pos path)
    (before : List Tree) (passed : ∀ s ∈ before, s.covers pos = false) : (rest : List Tree) →
    ∀ f, statementAmong? pos rule path before rest = some f →
      f.whole = Focus.whole ⟨.branch rule (before.reverse ++ rest), path⟩ ∧
        f.tree.covers pos = true ∧ Passed pos f.path
  | [] => by
    intro f hf
    rw [statementAmong?] at hf
    cases hf
  | t :: rest => by
    intro f hf
    have inner : Passed pos (⟨rule, before, rest⟩ :: path) :=
      List.forall_mem_cons.2 ⟨passed, outer⟩
    by_cases covers : t.covers pos = true
    · rw [statementAmong?_covers covers, enter?] at hf
      split at hf
      · exact statementIn?_ok _ inner t f hf
      · cases hf
        exact ⟨rfl, covers, inner⟩
    · rw [statementAmong?, if_neg covers] at hf
      have later := statementAmong?_ok rule path outer (t :: before)
        (List.forall_mem_cons.2 ⟨by simpa using covers, passed⟩) rest f hf
      rwa [List.reverse_cons, List.append_assoc, List.singleton_append] at later

end

theorem statementAt?_ok (h : m.statementAt? pos = some f) :
    f.whole = m.root ∧ f.tree.covers pos = true ∧ Passed pos f.path :=
  statementIn?_ok [] (by simp [Passed]) m.root f h

/-- If no child before the way up to a place covers the start of the place, the leaves before the
place end before its start. -/
theorem Spans.before_start (h : m.Spans g source) (whole : f.whole = m.root)
    (passed : Passed pos f.path) (at_ : f.tree.start = pos) :
    ∀ l ∈ Focus.leavesBefore f.path, l.stop < pos := by
  subst at_
  intro l hl
  obtain ⟨crumb, hc, s, hs, own⟩ := Focus.mem_leavesBefore hl
  obtain ⟨formed, ordered⟩ := Focus.sibling (whole ▸ h.formed) (whole ▸ h.ordered) crumb hc s hs
  obtain ⟨-, -, ends, -⟩ := Focus.around_start (whole ▸ h.formed) (whole ▸ h.ordered)
  -- the leaf ends before the place starts, so the child around it starts before
  have earlier : s.start ≤ f.tree.start :=
    Position.le_trans (formed.start_le ordered l own)
      (Position.le_trans l.start_le_stop (ends l hl))
  have short : s.stop < f.tree.start := by
    rw [← Position.not_le]
    intro reaches
    have covers := Tree.covers_iff.2 ⟨earlier, reaches⟩
    rw [passed crumb hc s hs] at covers
    cases covers
  exact Position.lt_of_le_of_lt (formed.le_stop ordered l own) short

/-- The leaves before the leaf at a position end before the position. -/
theorem Spans.before_leaf (h : m.Spans g source) (leaf : m.leafAt? pos true = some f) :
    f.whole = m.root ∧ ∀ l ∈ Focus.leavesBefore f.path, l.stop < pos := by
  have inside : ¬ (pos < .start ∨ m.root.stop < pos) := by
    intro outside
    rw [Spans.leafAt?_outside outside] at leaf
    cases leaf
  rw [not_or, Position.not_lt, Position.not_lt] at inside
  rw [h.leafAt?_eq inside.1 inside.2] at leaf
  obtain ⟨found, -⟩ := Option.filter_eq_some_iff.1 leaf
  obtain ⟨-, front, back, split, short⟩ := List.find?_eq_some_iff_append.1 found
  refine ⟨(Focus.whole_of_mem_leaves (List.mem_of_find?_eq_some found)).1, fun l hl => ?_⟩
  have member : Tree.leaf l ∈ front.map (·.tree) := by
    rw [← Focus.leaves_before split]
    exact List.mem_map_of_mem hl
  obtain ⟨e, he, tree⟩ := List.mem_map.1 member
  have ends := short e he
  rw [tree] at ends
  exact Position.not_le.1 (by simpa using ends)

end Module

/-! ## What is located -/

namespace Completion

variable {g : Grammar} {m : Module} {source : Text} {pos : Position} {place s : Focus}

/-- The construct starts before the position, or no leaf comes before it. -/
def Precedes (m : Module) (pos : Position) (place : Focus) : Prop :=
  place.tree.start < pos ∨ place.previousLeaf? = none ∧ place.tree.leaves <+: m.root.leaves

/-- The second step of the lookup, from a place that starts before the position or has only leaves
before it that end there. -/
theorem placeAt_precedes (spans : m.Spans g source) (whole : place.whole = m.root)
    (before : pos ≤ place.tree.start → ∀ l ∈ Focus.leavesBefore place.path, l.stop < pos) :
    (placeAt m pos place).whole = m.root ∧ Precedes m pos (placeAt m pos place) := by
  unfold placeAt
  split
  · next here =>
    obtain ⟨previous, inside⟩ := Focus.previousLeaf?_eq (whole ▸ spans.formed)
    cases found : place.previousLeaf? with
    | none =>
      -- nothing comes before
      rw [found, Option.map_none, eq_comm, Option.map_eq_none_iff, List.getLast?_eq_none_iff]
        at previous
      obtain ⟨behind, split⟩ := place.whole_leaves
      rw [previous, whole, List.nil_append] at split
      exact ⟨whole, .inr ⟨found, behind, split.symm⟩⟩
    | some p =>
      rw [found, Option.map_some, eq_comm, Option.map_eq_some_iff] at previous
      obtain ⟨l, last, tree⟩ := previous
      have early : p.tree.start < pos := by
        rw [← tree, Tree.start_leaf]
        exact Position.lt_of_le_of_lt l.start_le_stop (before here l (List.mem_of_getLast? last))
      cases around : m.statementAt? p.tree.start with
      | none =>
        dsimp only
        rw [around]
        exact ⟨(inside p found).trans whole, .inl early⟩
      | some n =>
        obtain ⟨place', covers, -⟩ := Module.statementAt?_ok around
        dsimp only
        rw [around]
        exact ⟨place', .inl (Position.lt_of_le_of_lt (Tree.covers_iff.1 covers).1 early)⟩
  · next behind => exact ⟨whole, .inl (Position.not_le.1 behind)⟩

theorem locate_node (h : locate m pos = .ok (.node place)) :
    ∃ found, (m.statementAt? pos).or (m.leafAt? pos true) = some found ∧
      placeAt m pos found = place := by
  rcases locate_cases m pos with h' | ⟨-, h'⟩ | ⟨found, eq, h' | h'⟩ <;> rw [h'] at h <;> cases h
  exact ⟨found, eq, rfl⟩

/-- What is located precedes the position. -/
theorem locate_precedes (spans : m.Spans g source) (h : locate m pos = .ok (.node place)) :
    place.whole = m.root ∧ Precedes m pos place := by
  obtain ⟨found, eq, rfl⟩ := locate_node h
  rcases Option.or_eq_some_iff.1 eq with statement | ⟨-, leaf⟩
  · obtain ⟨whole, covers, passed⟩ := Module.statementAt?_ok statement
    refine placeAt_precedes spans whole fun here => spans.before_start whole passed ?_
    have after := (Tree.covers_iff.1 covers).1
    generalize found.tree.start = start at here after
    cases start
    cases pos
    simp only [Position.le_def, Position.mk.injEq] at here after ⊢
    omega
  · obtain ⟨whole, short⟩ := spans.before_leaf leaf
    exact placeAt_precedes spans whole fun _ => short

/-- At the start of a construct that leaves come before, what is located begins with one of them. -/
theorem Precedes.begins (spans : m.Spans g source) (precedes : Precedes m pos place)
    (whole : place.whole = m.root) (other : s.whole = m.root) (at_ : s.tree.start = pos)
    (some : Focus.leavesBefore s.path ≠ []) :
    ∃ l ∈ Focus.leavesBefore s.path, place.tree.leaves.head? = .some l := by
  obtain ⟨l, head, start⟩ := (Focus.formed (whole ▸ spans.formed)).start_eq
  obtain ⟨behind, split, -, later⟩ :=
    Focus.around_start (f := s) (other ▸ spans.formed) (other ▸ spans.ordered)
  rw [other] at split
  refine ⟨l, ?_, head⟩
  rcases precedes with early | ⟨-, rest, front⟩
  · have member : l ∈ m.root.leaves := whole ▸ place.subset_whole (List.mem_of_mem_head? head)
    rw [split] at member
    refine (List.mem_append.1 member).resolve_right fun late => ?_
    rw [start, ← at_] at early
    exact Position.not_le.2 early (later l late)
  · obtain ⟨l', more, before⟩ := List.exists_cons_of_ne_nil some
    obtain ⟨tail, own⟩ := List.head?_eq_some_iff.1 head
    rw [own, split, before, List.cons_append, List.cons_append] at front
    rw [before, (List.cons.inj front).1]
    exact List.mem_cons_self

/-- What is located for a position in a parsed source is a place in its tree, and it starts before
the position unless it is the first construct of the source. So at the start of a construct that
leaves come before, what is located begins with one of these leaves. -/
theorem locate_before (source : Text) : ∃ g m, Grammar.python = .ok g ∧
    Module.parse g source = .ok m ∧ ∀ pos place, locate m pos = .ok (.node place) →
      place.whole = m.root ∧
      (place.tree.start < pos ∨
        place.previousLeaf? = none ∧ place.tree.leaves <+: m.root.leaves) ∧
      ∀ s : Focus, s.whole = m.root → s.tree.start = pos → s.previousLeaf? ≠ none →
        ∃ l ∈ Focus.leavesBefore s.path, place.tree.leaves.head? = some l := by
  obtain ⟨m, parsed, spans⟩ := Module.parse_spans Grammar.python_consistent Grammar.python_layered
    Grammar.python_sealed source
  refine ⟨_, m, Grammar.python_eq, parsed, fun pos place located => ?_⟩
  obtain ⟨whole, precedes⟩ := locate_precedes spans located
  refine ⟨whole, precedes, fun s other at_ previous => ?_⟩
  refine precedes.begins spans whole other at_ fun none => previous ?_
  have eq := (Focus.previousLeaf?_eq (f := s) (other ▸ spans.formed)).1
  rwa [none, List.getLast?_nil, Option.map_none, Option.map_eq_none_iff] at eq

/-- At the start of the second of two statements in a line. -/
theorem locate_before_second : ∃ g m place, ∃ s : Focus, Grammar.python = .ok g ∧
    Module.parse g "x = 1; y = 2\n".toList = .ok m ∧ locate m ⟨1, 7⟩ = .ok (.node place) ∧
    place.whole = m.root ∧ (place.tree.start < ⟨1, 7⟩ ∨
      place.previousLeaf? = none ∧ place.tree.leaves <+: m.root.leaves) ∧
    s.whole = m.root ∧ s.tree.start = ⟨1, 7⟩ ∧ s.previousLeaf? ≠ none ∧
    ∃ l ∈ Focus.leavesBefore s.path, place.tree.leaves.head? = some l := by
  obtain ⟨g, m, python, parsed, before⟩ := locate_before "x = 1; y = 2\n".toList
  obtain rfl : Grammar.pythonTables = g := by
    rw [Grammar.python_eq] at python
    exact Except.ok.inj python
  have computed : (Module.parse Grammar.pythonTables "x = 1; y = 2\n".toList).toOption.any
      (fun m => (match locate m ⟨1, 7⟩ with
        | .ok (.node _) => true
        | _ => false) &&
        (m.statementAt? ⟨1, 8⟩).any fun s => s.tree.start == ⟨1, 7⟩ && s.previousLeaf?.isSome) =
      true := by
    decide +kernel
  rw [parsed] at computed
  obtain ⟨located, around⟩ := Bool.and_eq_true_iff.1 computed
  obtain ⟨s, found⟩ : ∃ s, m.statementAt? ⟨1, 8⟩ = some s := by
    cases found : m.statementAt? ⟨1, 8⟩ with
    | none => rw [found] at around; cases around
    | some s => exact ⟨s, rfl⟩
  rw [found] at around
  obtain ⟨at_, previous⟩ := Bool.and_eq_true_iff.1 around
  have other := (Module.statementAt?_ok found).1
  have start : s.tree.start = ⟨1, 7⟩ := eq_of_beq at_
  have some : s.previousLeaf? ≠ none := Option.isSome_iff_ne_none.1 previous
  split at located
  · next place here =>
    obtain ⟨whole, precedes, begins⟩ := before _ place here
    exact ⟨_, m, place, s, python, parsed, here, whole, precedes, other, start, some,
      begins s other start some⟩
  · cases located

end Completion

end Caret

import Caret.Proofs.Definitions
import Caret.Proofs.Preceding
import Caret.Proofs.Slices
import Mathlib.Data.List.Find
/-!
# Behind the end of a line

A position behind the end of a line is taken back to that end where text is cut out, but not where
the tree is looked up. Nothing of the tree starts or ends behind the end of a line and still in the
line, so the two positions are told apart only by what starts or ends at the end of the line itself.
Where what is found there goes on in the next line, they have the same completions. Where a line
break ends a statement they do not: the line break is itself a leaf, and the position behind the end
of the line is in it.

Results:
* `Text.between_clamped`: the text up to a position behind the end of a line.
* `NoEdge`, `Module.noEdge_past`: nothing starts or ends behind the end of a line.
* `Module.statementAt?_past`, `Completion.expectedAt_past`: what is found behind the end of a line.
* `Completion.complete_past_end`: completions behind the end of a line.
* `Completion.complete_differs`: behind the end of a line that ends a statement they are others.
-/
namespace Caret

/-! ## Lines of a text -/

namespace Text

variable {source line u : Text} {i c : Nat}

/-- A position behind the end of a line is taken back to that end. -/
theorem between_clamped (hl : (lines source)[i]? = some line) (plain : line.getLast? ≠ some '\r')
    (past : line.length ≤ c) (start : Position) :
    between source start ⟨i + 1, c⟩ = between source start ⟨i + 1, line.length⟩ := by
  obtain ⟨bound, at_⟩ := List.getElem?_eq_some_iff.1 hl
  have split : sourceLines source = ((lines source).take i).map dropReturn ++
      line :: ((lines source).drop (i + 1)).map dropReturn := by
    have whole : lines source = (lines source).take i ++ line :: (lines source).drop (i + 1) := by
      rw [← at_, ← List.drop_eq_getElem_cons bound, List.take_append_drop]
    have same : dropReturn line = line := by rw [dropReturn, if_neg plain]
    unfold sourceLines
    conv_lhs => rw [whole, List.map_append, List.map_cons, same]
  have count : i + 1 = 1 + (((lines source).take i).map dropReturn).length := by
    rw [List.length_map, List.length_take]
    omega
  unfold between
  rw [split]
  dsimp only
  rw [count, onLast_upTo, onLast_upTo, List.take_of_length_le past,
    List.take_of_length_le (Nat.le_refl _)]

/-- Writing a beginning of a text ends in a line of it, and not behind the end of the line. -/
theorem column_le (front : u <+: source) (hl : (lines source)[i]? = some line)
    (here : (Position.start.advancedBy u).line = i + 1) :
    (Position.start.advancedBy u).column ≤ line.length := by
  obtain ⟨w, rfl⟩ := front
  obtain ⟨before, last, first, after, hu, -, whole⟩ := exists_lines_append u w
  have place : Position.start.advancedBy u = ⟨1 + before.length, last.length⟩ := by
    rw [advancedBy_lines before hu]
    simp [Position.start]
  rw [place] at here ⊢
  dsimp only at here ⊢
  obtain rfl : i = before.length := by omega
  rw [whole, List.getElem?_append_right (Nat.le_refl _), Nat.sub_self] at hl
  obtain rfl : last ++ first = line := by simpa using hl
  simp

/-- The lines of a source are lines of the completed source. -/
theorem lines_completed (hl : (lines source)[i]? = some line) :
    (lines (Module.completed source))[i]? = some line := by
  unfold Module.completed
  split
  · exact hl
  · obtain ⟨before, last, first, after, ht, hs, whole⟩ := exists_lines_append source ['\n']
    obtain ⟨rfl, rfl⟩ : first = [] ∧ after = [[]] := by
      have two : lines ['\n'] = [[], []] := by decide
      rw [two] at hs
      simpa using hs.symm
    rw [whole, List.append_nil]
    rw [ht] at hl
    rw [List.append_cons, List.getElem?_append_left (List.getElem?_eq_some_iff.1 hl).1]
    exact hl

end Text

/-! ## Edges -/

/-- None of the leaves starts or ends behind `p` and not behind `q`. -/
def NoEdge (p q : Position) (ls : List Leaf) : Prop :=
  ∀ l ∈ ls, (l.start ≤ q → l.start ≤ p) ∧ (l.stop ≤ q → l.stop ≤ p)

variable {g : Grammar} {p q : Position} {t : Tree} {ts : List Tree} {l : Leaf} {source line : Text}
  {i c : Nat} {m : Module}

namespace Position

/-- A beginning of a source that leads behind the end of a line leads to a later line. -/
theorem not_past {u : Text} (front : u <+: Module.completed source)
    (hl : (Text.lines source)[i]? = some line)
    (upTo : Position.start.advancedBy u ≤ ⟨i + 1, c⟩) :
    Position.start.advancedBy u ≤ ⟨i + 1, line.length⟩ := by
  have column := Text.column_le front (Text.lines_completed hl)
  rw [Position.le_def] at upTo ⊢
  rcases upTo with earlier | ⟨here, -⟩
  · exact .inl earlier
  · exact .inr ⟨here, column here⟩

end Position

namespace Module

/-- No leaf starts or ends behind the end of a line and still in the line. -/
theorem noEdge_past (spells : Spells (tokenize (completed source)) m.root.leaves)
    (hl : (Text.lines source)[i]? = some line) (c : Nat) :
    NoEdge ⟨i + 1, line.length⟩ ⟨i + 1, c⟩ m.root.leaves := by
  intro l hl'
  obtain ⟨t, ht, value, start⟩ := spells.token hl'
  obtain ⟨u, v, split, at_⟩ := tokenize_stands ht
  have stop : l.stop = Position.start.advancedBy (u ++ t.value) := by
    rw [Leaf.stop, value, start, at_, Position.advancedBy_append]
  rw [start, at_, stop]
  exact ⟨Position.not_past ⟨t.value ++ v, by rw [split, List.append_assoc]⟩ hl,
    Position.not_past ⟨v, split.symm⟩ hl⟩

/-- A name that starts at the end of a line or behind it starts in a later line. -/
theorem name_past (spells : Spells (tokenize (completed source)) m.root.leaves)
    (hl : (Text.lines source)[i]? = some line) (member : l ∈ m.root.leaves)
    (name : l.IsNameIn (tokenize (completed source))) :
    l.start < ⟨i + 1, c⟩ → l.start < ⟨i + 1, line.length⟩ := by
  intro before
  have upTo := (noEdge_past spells hl c l member).1 (Position.le_of_lt before)
  rw [← Position.not_le]
  intro here
  -- the character behind the start would stand behind the end of the line
  obtain ⟨t, ht, kind, -, start⟩ := name
  obtain ⟨us, ts, tokens⟩ := List.append_of_mem ht
  obtain ⟨⟨first, tail, value, starts⟩, -⟩ := tokenize_name tokens kind
  obtain ⟨u, v, split, at_⟩ := tokenize_stands ht
  have plain : first ≠ '\n' := by
    rintro rfl
    exact absurd starts (by decide)
  have equal : Position.start.advancedBy u = ⟨i + 1, line.length⟩ := by
    rw [start, at_] at here upTo
    exact Position.le_antisymm upTo here
  have next : Position.start.advancedBy (u ++ [first]) = ⟨i + 1, line.length + 1⟩ := by
    rw [Position.advancedBy_append, equal]
    simp [Position.advancedBy, Position.advance, plain]
  have column := Text.column_le ⟨tail ++ v, by rw [split, value]; simp⟩ (Text.lines_completed hl)
    (congrArg Position.line next)
  rw [next] at column
  exact absurd column (by simp)

end Module

namespace Tree

theorem Formed.noEdge (formed : t.Formed g) (level : NoEdge p q t.leaves) :
    (t.start ≤ q → t.start ≤ p) ∧ (t.stop ≤ q → t.stop ≤ p) := by
  obtain ⟨first, head, start⟩ := formed.start_eq
  obtain ⟨last, tail, stop⟩ := formed.stop_eq
  rw [start, stop]
  exact ⟨(level first (List.mem_of_mem_head? head)).1, (level last (List.mem_of_getLast? tail)).2⟩

/-- What ends behind `p` ends behind `q`. -/
theorem Formed.reaches (formed : t.Formed g) (level : NoEdge p q t.leaves) (behind : p < t.stop) :
    q < t.stop := by
  rw [← Position.not_le] at behind ⊢
  exact fun short => behind ((formed.noEdge level).2 short)

/-- What covers `q` covers `p`. -/
theorem Formed.covers_before (formed : t.Formed g) (level : NoEdge p q t.leaves) (le : p ≤ q)
    (covers : t.covers q = true) : t.covers p = true := by
  rw [covers_iff] at covers ⊢
  exact ⟨(formed.noEdge level).1 covers.1, Position.le_trans le covers.2⟩

/-- What covers `p` and ends behind it covers `q`. -/
theorem Formed.covers_past (formed : t.Formed g) (level : NoEdge p q t.leaves) (le : p ≤ q)
    (covers : t.covers p = true) (behind : p < t.stop) : t.covers q = true := by
  rw [covers_iff] at covers ⊢
  have past := formed.reaches level behind
  exact ⟨Position.le_trans covers.1 le, Position.le_of_lt past⟩

/-- A child ends no later than the branch. -/
theorem Formed.stop_child {rule : String} (formed : (Tree.branch rule ts).Formed g)
    (ordered : (Tree.branch rule ts).leaves.Pairwise Leaf.Before) (ht : t ∈ ts) :
    t.stop ≤ (Tree.branch rule ts).stop := by
  have inner : t.Formed g := by
    cases formed with
    | branch _ _ children => exact children t ht
  obtain ⟨last, tail, stop⟩ := inner.stop_eq
  rw [stop]
  apply formed.le_stop ordered
  rw [leaves_branch]
  exact List.mem_flatMap.2 ⟨t, ht, List.mem_of_getLast? tail⟩

end Tree

/-! ## Looking for a statement -/

namespace Module

/-- Trees that are formed and have their leaves in order, with no edge between two positions. -/
structure Level (g : Grammar) (p q : Position) (t : Tree) : Prop where
  formed : t.Formed g
  ordered : t.leaves.Pairwise Leaf.Before
  noEdge : NoEdge p q t.leaves

theorem Level.child {rule : String} (h : Level g p q (.branch rule ts)) :
    ∀ t ∈ ts, Level g p q t := by
  obtain ⟨formed, ordered, noEdge⟩ := h
  rw [Tree.leaves_branch] at ordered noEdge
  cases formed with
  | branch _ _ children =>
    intro t ht
    exact ⟨children t ht, (List.pairwise_flatMap.1 ordered).1 t ht,
      fun l hl => noEdge l (List.mem_flatMap.2 ⟨t, ht, hl⟩)⟩

mutual

/-- A statement that is found ends no later than the tree. -/
theorem statementIn?_stop (path : List Crumb) : (t : Tree) → Level g p q t →
    ∀ s, statementIn? p path t = some s → s.tree.stop ≤ t.stop
  | .leaf l => by
    intro level s hs
    rw [statementIn?] at hs
    cases hs
  | .branch rule children => by
    intro level s hs
    rw [statementIn?] at hs
    obtain ⟨t, ht, stop⟩ := statementAmong?_stop rule path [] children level.child s hs
    exact Position.le_trans stop (level.formed.stop_child level.ordered ht)

theorem statementAmong?_stop (rule : String) (path : List Crumb) (before : List Tree) :
    (rest : List Tree) → (∀ t ∈ rest, Level g p q t) →
      ∀ s, statementAmong? p rule path before rest = some s → ∃ t ∈ rest, s.tree.stop ≤ t.stop
  | [] => by
    intro level s hs
    rw [statementAmong?] at hs
    cases hs
  | t :: rest => by
    intro level s hs
    by_cases covers : t.covers p = true
    · rw [statementAmong?_covers covers, enter?] at hs
      refine ⟨t, List.mem_cons_self, ?_⟩
      split at hs
      · exact statementIn?_stop _ t (level t List.mem_cons_self) s hs
      · cases hs
        exact Position.le_refl _
    · rw [statementAmong?, if_neg covers] at hs
      obtain ⟨u, hu, stop⟩ := statementAmong?_stop rule path (t :: before) rest
        (fun u hu => level u (List.mem_cons_of_mem _ hu)) s hs
      exact ⟨u, List.mem_cons_of_mem _ hu, stop⟩

end

/-- What is found at `p` goes on behind it; if nothing is found, no leaf ends there. -/
def EndsBehind (p : Position) (leaves : List Leaf) : Option Focus → Prop
  | some s => p < s.tree.stop
  | none => ∀ l ∈ leaves, l.stop ≠ p

theorem EndsBehind.subset {ks ls : List Leaf} {found : Option Focus} (h : EndsBehind p ls found)
    (some : ks ⊆ ls) : EndsBehind p ks found := by
  cases found with
  | none => exact fun l hl => h l (some hl)
  | some s => exact h

mutual

/-- With no edge from `p` on up to `q`, looking for a statement finds the same at both. -/
theorem statementIn?_past (le : p ≤ q) (path : List Crumb) : (t : Tree) → Level g p q t →
    EndsBehind p t.leaves (statementIn? p path t) → statementIn? q path t = statementIn? p path t
  | .leaf l => by
    intro _ _
    rw [statementIn?, statementIn?]
  | .branch rule children => by
    intro level behind
    rw [statementIn?, Tree.leaves_branch] at behind
    rw [statementIn?, statementIn?]
    exact statementAmong?_past le rule path [] children level.child behind

theorem statementAmong?_past (le : p ≤ q) (rule : String) (path : List Crumb)
    (before : List Tree) : (rest : List Tree) → (∀ t ∈ rest, Level g p q t) →
      EndsBehind p (rest.flatMap Tree.leaves) (statementAmong? p rule path before rest) →
      statementAmong? q rule path before rest = statementAmong? p rule path before rest
  | [] => by
    intro _ _
    rw [statementAmong?, statementAmong?]
  | t :: rest => by
    intro level behind
    have own := level t List.mem_cons_self
    rw [List.flatMap_cons] at behind
    by_cases covers : t.covers p = true
    · rw [statementAmong?_covers covers] at behind ⊢
      have reaches : p < t.stop := by
        unfold enter? at behind
        split at behind
        · cases found : statementIn? p (⟨rule, before, rest⟩ :: path) t with
          | some s =>
            rw [found] at behind
            exact Position.lt_of_lt_of_le behind (statementIn?_stop _ t own s found)
          | none =>
            rw [found] at behind
            obtain ⟨last, tail, stop⟩ := own.formed.stop_eq
            have apart : last.stop ≠ p :=
              behind last (List.mem_append_left _ (List.mem_of_getLast? tail))
            have upTo := (Tree.covers_iff.1 covers).2
            rw [stop] at upTo ⊢
            exact Position.lt_of_le_of_ne upTo apart.symm
        · exact behind
      rw [statementAmong?_covers (own.formed.covers_past own.noEdge le covers reaches)]
      unfold enter? at behind ⊢
      split
      · next container =>
        rw [if_pos container] at behind
        exact statementIn?_past le _ t own (behind.subset (List.subset_append_left _ _))
      · rfl
    · have covers' : ¬ t.covers q = true :=
        fun h => covers (own.formed.covers_before own.noEdge le h)
      rw [statementAmong?, if_neg covers] at behind
      rw [statementAmong?, if_neg covers', statementAmong?, if_neg covers]
      exact statementAmong?_past le rule path (t :: before) rest
        (fun u hu => level u (List.mem_cons_of_mem _ hu))
        (behind.subset (List.subset_append_right _ _))

end

/-- With no edge from `p` on up to `q`, and no leaf that ends at `p`, the leaf is the same. -/
theorem Spans.leafAt?_past (h : m.Spans g source) (from_ : .start ≤ p) (le : p ≤ q)
    (noEdge : NoEdge p q m.root.leaves) (apart : ∀ l ∈ m.root.leaves, l.stop ≠ p) :
    m.leafAt? q true = m.leafAt? p true := by
  have ends {l : Leaf} (hl : l ∈ m.root.leaves) : q ≤ l.stop ↔ p ≤ l.stop := by
    constructor
    · exact Position.le_trans le
    · intro upTo
      have behind := Position.lt_of_le_of_ne upTo (apart l hl).symm
      rw [← Position.not_lt]
      intro short
      exact Position.not_le.2 behind ((noEdge l hl).2 (Position.le_of_lt short))
  obtain ⟨last, tail, stop⟩ := h.formed.stop_eq
  have last_ends := ends (List.mem_of_getLast? tail)
  rw [← stop] at last_ends
  by_cases inside : p ≤ m.root.stop
  · rw [h.leafAt?_eq (Position.le_trans from_ le) (last_ends.2 inside),
      h.leafAt?_eq from_ inside]
    have scans : scan q (Focus.root m.root).leaves = scan p (Focus.root m.root).leaves := by
      refine List.find?_congr fun f hf => ?_
      have member : f.tree ∈ m.root.leaves.map Tree.leaf := by
        rw [← Focus.leavesIn_trees [] m.root]
        exact List.mem_map_of_mem hf
      obtain ⟨l, hl, tree⟩ := List.mem_map.1 member
      rw [← tree, Tree.stop_leaf]
      exact decide_eq_decide.2 (ends hl)
    rw [scans]
    simp
  · have outside := Position.not_le.1 inside
    rw [Spans.leafAt?_outside (.inr outside),
      Spans.leafAt?_outside (.inr (Position.lt_of_lt_of_le outside le))]

end Module

/-! ## Completions -/

namespace Completion

/-- What is found at the position goes on behind it: the statement around it begins before the
position and ends behind it, or there is none and no leaf begins or ends there. -/
structure RunsOn (m : Module) (p : Position) : Prop where
  statement : ∀ s, m.statementAt? p = some s → s.tree.start < p ∧ p < s.tree.stop
  outside : m.statementAt? p = none → ∀ l ∈ m.root.leaves, l.start ≠ p ∧ l.stop ≠ p

/-- The same is located at both positions, or nothing can be completed at either. The errors then
differ in the position that they name. -/
def LocatesAlike (m : Module) (p q : Position) : Prop :=
  (∃ located, locate m q = .ok located ∧ locate m p = .ok located) ∨
    ∃ e e', locate m q = .error e ∧ locate m p = .error e' ∧ e.isRecoverable = true ∧
      e'.isRecoverable = true

/-- What is located is decided by what is found at a position. -/
theorem locate_congr (statement : m.statementAt? q = m.statementAt? p)
    (found : (m.statementAt? p).or (m.leafAt? q true) = (m.statementAt? p).or (m.leafAt? p true))
    (place : ∀ f, (m.statementAt? p).or (m.leafAt? p true) = some f →
      placeAt m q f = placeAt m p f) : LocatesAlike m p q := by
  unfold LocatesAlike locate
  dsimp only
  rw [statement, found]
  by_cases block : (m.statementAt? p).any
      (fun s => s.tree.title == "indent" || s.tree.title == "dedent") = true
  · rw [if_pos block, if_pos block]
    exact .inl ⟨_, rfl, rfl⟩
  · rw [if_neg block, if_neg block]
    cases eq : (m.statementAt? p).or (m.leafAt? p true) with
    | none => exact .inr ⟨_, _, rfl, rfl, rfl, rfl⟩
    | some f =>
      dsimp only
      rw [place f eq]
      split
      · exact .inr ⟨_, _, rfl, rfl, rfl, rfl⟩
      · exact .inl ⟨_, rfl, rfl⟩

/-- What may come next is decided by what is located and by the text before the position. -/
theorem expectedAt_congr (alike : LocatesAlike m p q)
    (cut : ∀ start, source.between start q = source.between start p) :
    expectedAt g source m q = expectedAt g source m p := by
  unfold expectedAt stackAt snippetAt
  rcases alike with ⟨located, hq, hp⟩ | ⟨e, e', hq, hp, mild, mild'⟩
  · rw [hq, hp]
    cases located with
    | whitespace => rfl
    | node place =>
      have same := cut place.tree.start
      simp only [bind, Except.bind, same]
  · rw [hq, hp]
    show (if e.isRecoverable then _ else _) = (if e'.isRecoverable then _ else _)
    rw [if_pos mild, if_pos mild']

/-- With no edge from the end of a line on, what may come next is the same behind it. -/
theorem expectedAt_past (spans : m.Spans g source) (from_ : .start ≤ p) (le : p ≤ q)
    (noEdge : NoEdge p q m.root.leaves) (runsOn : RunsOn m p)
    (cut : ∀ start, source.between start q = source.between start p) :
    expectedAt g source m q = expectedAt g source m p := by
  have ends : Module.EndsBehind p m.root.leaves (m.statementAt? p) := by
    cases found : m.statementAt? p with
    | none => exact fun l hl => (runsOn.outside found l hl).2
    | some s => exact (runsOn.statement s found).2
  have statement : m.statementAt? q = m.statementAt? p :=
    Module.statementIn?_past le [] m.root ⟨spans.formed, spans.ordered, noEdge⟩ ends
  refine expectedAt_congr (locate_congr statement ?_ ?_) cut
  · cases found : m.statementAt? p with
    | some s => rfl
    | none =>
      exact spans.leafAt?_past from_ le noEdge fun l hl => (runsOn.outside found l hl).2
  · intro f found
    have start : q ≤ f.tree.start ↔ p ≤ f.tree.start := by
      refine ⟨Position.le_trans le, fun upTo => ?_⟩
      rcases Option.or_eq_some_iff.1 found with here | ⟨none, leaf⟩
      · exact absurd upTo (Position.not_le.2 (runsOn.statement f here).1)
      · obtain ⟨whole, -⟩ := spans.before_leaf leaf
        obtain ⟨l, head, start⟩ := (Focus.formed (whole ▸ spans.formed)).start_eq
        have member : l ∈ m.root.leaves := whole ▸ f.subset_whole (List.mem_of_mem_head? head)
        rw [start] at upTo ⊢
        have behind := Position.lt_of_le_of_ne upTo (runsOn.outside none l member).1.symm
        rw [← Position.not_lt]
        intro short
        exact Position.not_le.2 behind ((noEdge l member).1 (Position.le_of_lt short))
    unfold placeAt
    simp only [start]

/-- No name is bound from the end of a line on that is not in a later line. -/
theorem namesInScope_past {rules : List String} (ordered : m.root.leaves.Pairwise Leaf.Before)
    (regular : m.root.Regular Grammar.pythonTables (tokenize (Module.completed source)) rules)
    (spells : Spells (tokenize (Module.completed source)) m.root.leaves)
    (hl : (Text.lines source)[i]? = some line) (past : line.length ≤ c) :
    Scope.namesInScope m ⟨i + 1, c⟩ = Scope.namesInScope m ⟨i + 1, line.length⟩ := by
  unfold Scope.namesInScope
  have same : (Scope.definitions none m).filter (·.start < (⟨i + 1, c⟩ : Position)) =
      (Scope.definitions none m).filter (·.start < (⟨i + 1, line.length⟩ : Position)) := by
    refine List.filter_congr fun d hd => ?_
    rw [Scope.definitions_eq ordered] at hd
    obtain ⟨f, hf, at_⟩ := List.mem_filterMap.1 hd
    obtain ⟨l, leaf, name, -, start, -⟩ := Scope.definition?_leaf at_
    have member : Tree.leaf l ∈ m.root.leaves.map Tree.leaf := by
      rw [← Focus.leavesIn_trees [] m.root, ← leaf]
      exact List.mem_map_of_mem hf
    obtain ⟨k, hk, eq⟩ := List.mem_map.1 member
    cases eq
    rw [start, decide_eq_decide]
    refine ⟨Module.name_past spells hl hk (regular.name hk name), fun before => ?_⟩
    exact Position.lt_of_lt_of_le before (.inr ⟨rfl, past⟩)
  rw [same]

theorem importAt_none (apart : ∀ b ∈ m.broken, importRules.contains b.title = true →
    p ≤ b.start ∨ b.stop < p) : importAt m p = .notApplicable := by
  have none : m.broken.find? (isImportAt · p) = .none := by
    refine List.find?_eq_none.2 fun b hb around => ?_
    unfold isImportAt at around
    simp only [Bool.and_eq_true, decide_eq_true_eq] at around
    obtain ⟨⟨title, after⟩, upTo⟩ := around
    rcases apart b hb title with before | behind
    · exact Position.not_le.2 after before
    · exact Position.not_le.2 behind upTo
  unfold importAt
  rw [none]

/-- With the Python grammar take any source, a line of it that does not end in a carriage return,
and a position behind the end of the line. What has been typed there and what names are in scope is
the same as at the end of the line. If what is found at the end of the line goes on behind it, the
same may come next. If besides no identifier is being typed and there is no unfinished import, an
evaluator that offers the same names at both has the same completions at both. -/
theorem complete_past_end (source : Text) : ∃ g m, Grammar.python = .ok g ∧
    Module.parse g source = .ok m ∧ ∀ i line c, (Text.lines source)[i]? = some line →
      line.getLast? ≠ some '\r' → line.length < c →
      Parts.ofPath (pathUntil source ⟨i + 1, c⟩) =
        Parts.ofPath (pathUntil source ⟨i + 1, line.length⟩) ∧
      Scope.namesInScope m ⟨i + 1, c⟩ = Scope.namesInScope m ⟨i + 1, line.length⟩ ∧
      (RunsOn m ⟨i + 1, line.length⟩ →
        expectedAt g source m ⟨i + 1, c⟩ = expectedAt g source m ⟨i + 1, line.length⟩ ∧
        ((Parts.ofPath (pathUntil source ⟨i + 1, line.length⟩)).name = [] →
          (∀ b ∈ m.broken, importRules.contains b.title = true →
            ⟨i + 1, c⟩ ≤ b.start ∨ b.stop < ⟨i + 1, line.length⟩) →
          ∀ (δ : Type) (e : Evaluator δ) (config : Config),
            e.namesInScope m ⟨i + 1, c⟩ = e.namesInScope m ⟨i + 1, line.length⟩ →
            complete g m source ⟨i + 1, c⟩ e config =
              complete g m source ⟨i + 1, line.length⟩ e config)) := by
  obtain ⟨m, parsed, spans⟩ := Module.parse_spans Grammar.python_consistent Grammar.python_layered
    Grammar.python_sealed source
  obtain ⟨m', parsed', spells, -⟩ := Module.parse_of_layered Grammar.python_consistent
    Grammar.python_layered source
  obtain rfl : m = m' := by
    rw [parsed] at parsed'
    exact Except.ok.inj parsed'
  have regular := (Module.parse_regular Grammar.python_consistent Grammar.python_layered
    Grammar.python_sealed Grammar.python_secluded parsed).1
  refine ⟨_, m, Grammar.python_eq, parsed, fun i line c hl plain past => ?_⟩
  have cut := Text.between_clamped hl plain past.le
  have le : (⟨i + 1, line.length⟩ : Position) ≤ ⟨i + 1, c⟩ := .inr ⟨rfl, past.le⟩
  have parts : Parts.ofPath (pathUntil source ⟨i + 1, c⟩) =
      Parts.ofPath (pathUntil source ⟨i + 1, line.length⟩) := by
    unfold pathUntil
    rw [cut]
  refine ⟨parts, namesInScope_past spans.ordered regular spells hl past.le, fun runsOn => ?_⟩
  have expected := expectedAt_past spans (by simp [Position.le_def, Position.start]; omega) le
    (Module.noEdge_past spells hl c) runsOn cut
  refine ⟨expected, fun typed imports δ e config names => ?_⟩
  have none : importAt m ⟨i + 1, c⟩ = .notApplicable := importAt_none fun b hb title =>
    (imports b hb title).imp_right fun short => Position.lt_of_lt_of_le short le
  have none' : importAt m ⟨i + 1, line.length⟩ = .notApplicable := importAt_none fun b hb title =>
    (imports b hb title).imp_left fun late => Position.le_trans le late
  unfold complete
  dsimp only
  rw [parts, typed, none, none']
  simp only [List.length_nil, Nat.sub_zero, expected, names]

/-- Behind a comma in a call, whose next argument is in the next line. -/
theorem complete_past_comma : ∃ g m, Grammar.python = .ok g ∧
    Module.parse g "f(a,\n  b)\n".toList = .ok m ∧
    (Text.lines "f(a,\n  b)\n".toList)[0]? = some "f(a,".toList ∧
    "f(a,".toList.getLast? ≠ some '\r' ∧ "f(a,".toList.length < 9 ∧ RunsOn m ⟨1, 4⟩ ∧
    (Parts.ofPath (pathUntil "f(a,\n  b)\n".toList ⟨1, 4⟩)).name = [] ∧
    (∀ b ∈ m.broken, importRules.contains b.title = true → ⟨1, 9⟩ ≤ b.start ∨ b.stop < ⟨1, 4⟩) ∧
    (Scope.evaluator none).namesInScope m ⟨1, 9⟩ = (Scope.evaluator none).namesInScope m ⟨1, 4⟩ ∧
    complete g m "f(a,\n  b)\n".toList ⟨1, 9⟩ (Scope.evaluator none) .default =
      complete g m "f(a,\n  b)\n".toList ⟨1, 4⟩ (Scope.evaluator none) .default := by
  obtain ⟨g, m, python, parsed, past⟩ := complete_past_end "f(a,\n  b)\n".toList
  obtain rfl := Grammar.python_tables python
  have computed : (Module.parse Grammar.pythonTables "f(a,\n  b)\n".toList).toOption.any
      (fun m => m.broken.isEmpty && (m.statementAt? ⟨1, 4⟩).any
        fun s => decide (s.tree.start < ⟨1, 4⟩) && decide (⟨1, 4⟩ < s.tree.stop)) = true := by
    decide +kernel
  rw [parsed, Except.toOption, Option.any_some, Bool.and_eq_true] at computed
  obtain ⟨intact, around⟩ := computed
  obtain ⟨s, found, within⟩ := (Option.any_eq_true _ _).1 around
  rw [Bool.and_eq_true, decide_eq_true_eq, decide_eq_true_eq] at within
  have runsOn : RunsOn m ⟨1, 4⟩ := by
    refine ⟨fun s' found' => ?_, fun none => ?_⟩
    · rw [found] at found'
      cases found'
      exact within
    · rw [found] at none
      cases none
  have whole : m.broken = [] := List.isEmpty_iff.1 intact
  have line : (Text.lines "f(a,\n  b)\n".toList)[0]? = some "f(a,".toList := by decide
  obtain ⟨-, names, more⟩ := past 0 "f(a,".toList 9 line (by decide) (by decide)
  have typed : (Parts.ofPath (pathUntil "f(a,\n  b)\n".toList ⟨1, 4⟩)).name = [] := by
    decide +kernel
  have imports : ∀ b ∈ m.broken, importRules.contains b.title = true →
      (⟨1, 9⟩ : Position) ≤ b.start ∨ b.stop < ⟨1, 4⟩ := by
    rw [whole]
    intro b hb
    cases hb
  exact ⟨_, m, python, parsed, line, by decide, by decide, runsOn, typed, imports, names,
    (more runsOn).2 typed imports _ (Scope.evaluator none) .default names⟩

/-- Behind the end of a line that ends a statement other tokens may come than at its end: there the
identifier typed is not what the rules left open are taken before. -/
theorem complete_differs : ∃ g m, Grammar.python = .ok g ∧
    Module.parse g "ab\n".toList = .ok m ∧ (Text.lines "ab\n".toList)[0]? = some "ab".toList ∧
    "ab".toList.getLast? ≠ some '\r' ∧ "ab".toList.length < 3 ∧
    (complete g m "ab\n".toList ⟨1, 3⟩ (Scope.evaluator none) .default).map (·.expected) ≠
      (complete g m "ab\n".toList ⟨1, 2⟩ (Scope.evaluator none) .default).map (·.expected) := by
  obtain ⟨m, parsed, -⟩ := Module.parse_of_layered Grammar.python_consistent
    Grammar.python_layered "ab\n".toList
  refine ⟨_, m, Grammar.python_eq, parsed, by decide, by decide, by decide, ?_⟩
  have computed : (Module.parse Grammar.pythonTables "ab\n".toList).toOption.any
      (fun m => !decide ((complete Grammar.pythonTables m "ab\n".toList ⟨1, 3⟩
          (Scope.evaluator none) .default).toOption.map (·.expected) =
        (complete Grammar.pythonTables m "ab\n".toList ⟨1, 2⟩
          (Scope.evaluator none) .default).toOption.map (·.expected))) = true := by
    decide +kernel
  rw [parsed, Except.toOption, Option.any_some, Bool.not_eq_true', decide_eq_false_iff_not]
    at computed
  intro same
  apply computed
  have answers := congrArg Except.toOption same
  generalize complete Grammar.pythonTables m "ab\n".toList ⟨1, 3⟩ (Scope.evaluator none) .default =
    past at answers ⊢
  generalize complete Grammar.pythonTables m "ab\n".toList ⟨1, 2⟩ (Scope.evaluator none) .default =
    ends at answers ⊢
  cases past <;> cases ends <;> exact answers

end Completion

end Caret

import Caret.Proofs.Lookup
/-!
# The leaf at a position

The leaf at a position is looked for by halves, in each branch on the way down. The children of a
branch end in order, so halving finds the first child that ends at the position or behind it, and
the first leaf that does so is in this child. What is found is therefore what a scan of all leaves
finds. The last leaf of a parsed source is the end marker, at the end of the text, so the scan finds
a leaf for every position up to there.

Results:
* `bisect_ok`: halving finds the first child that ends at the position or behind it.
* `leafIn?_scan`: below a branch, the leaf found is the one that a scan finds.
* `root_stop`: the tree of a source reaches to the end of the text.
* `Completion.leafAt?_scan`: the leaf at a position, and where there is none.
-/
namespace Caret

/-! ## Halving -/

namespace Module

variable {g : Grammar} {m : Module} {pos : Position} {t c : Tree} {rule : String}
  {path : List Crumb} {before rest ts : List Tree} {inTrivia : Bool}

/-- Between a child all before which end before the position, and one that does not, halving finds
the first that does not. -/
theorem bisect_between {n lower upper : Nat} {last : Tree}
    (sorted : ts.Pairwise fun s t => s.stop ≤ t.stop) (rounds : upper ≤ lower + n)
    (le : lower ≤ upper) (passed : ∀ s ∈ ts.take lower, s.stop < pos)
    (hlast : ts[upper]? = some last) (upTo : pos ≤ last.stop) :
    ∃ c, ts[bisect ts.toArray pos n lower upper]? = some c ∧ pos ≤ c.stop ∧
      ∀ s ∈ ts.take (bisect ts.toArray pos n lower upper), s.stop < pos := by
  induction n generalizing lower upper last with
  | zero =>
    obtain rfl : upper = lower := by omega
    exact ⟨last, hlast, upTo, passed⟩
  | succ n ih =>
    rw [bisect]
    split
    · next lt =>
      have bound := (List.getElem?_eq_some_iff.1 hlast).1
      have found : ts[(lower + upper) / 2]? = some ts[(lower + upper) / 2] :=
        List.getElem?_eq_getElem (by omega)
      generalize ts[(lower + upper) / 2] = middle at found
      have stop : ((ts.toArray[(lower + upper) / 2]?).map Tree.stop).getD .start = middle.stop := by
        rw [List.getElem?_toArray, found]
        rfl
      dsimp only
      rw [stop]
      split
      · next reached => exact ih (by omega) (by omega) passed found reached
      · next short =>
        refine ih (by omega) (by omega) (fun s hs => ?_) hlast upTo
        -- the children up to the middle end where that ends, or before
        rw [List.take_add_one, found, Option.toList_some] at hs
        refine Position.lt_of_le_of_lt ?_ (Position.not_le.1 short)
        rcases List.mem_append.1 hs with front | here
        · obtain ⟨hlt, same⟩ := List.getElem?_eq_some_iff.1 found
          rw [← List.take_append_drop ((lower + upper) / 2) ts,
            List.drop_eq_getElem_cons hlt, same] at sorted
          exact (List.pairwise_append.1 sorted).2.2 s front _ List.mem_cons_self
        · rw [List.mem_singleton.1 here]
          exact Position.le_refl _
    · next ge =>
      obtain rfl : upper = lower := by omega
      exact ⟨last, hlast, upTo, passed⟩

/-- Halving finds the first child that ends at the position or behind it. -/
theorem bisect_ok (sorted : ts.Pairwise fun s t => s.stop ≤ t.stop) {last : Tree}
    (hlast : ts.getLast? = some last) (upTo : pos ≤ last.stop) :
    ∃ passed c rest, ts = passed ++ c :: rest ∧
      bisect ts.toArray pos ts.length 0 (ts.length - 1) = passed.length ∧
      (∀ s ∈ passed, s.stop < pos) ∧ pos ≤ c.stop := by
  rw [List.getLast?_eq_getElem?] at hlast
  have start : ∀ s ∈ ts.take 0, s.stop < pos := by simp
  have rounds : ts.length - 1 ≤ 0 + ts.length := by omega
  obtain ⟨c, found, reached, passed⟩ :=
    bisect_between sorted rounds (Nat.zero_le _) start hlast upTo
  generalize bisect ts.toArray pos ts.length 0 (ts.length - 1) = k at found passed
  obtain ⟨bound, rfl⟩ := List.getElem?_eq_some_iff.1 found
  refine ⟨ts.take k, ts[k], ts.drop (k + 1), ?_, ?_, passed, reached⟩
  · rw [← List.drop_eq_getElem_cons bound, List.take_append_drop]
  · rw [List.length_take]
    omega

/-- The children of a branch end in order. -/
theorem children_sorted (formed : (Tree.branch rule ts).Formed g)
    (ordered : (Tree.branch rule ts).leaves.Pairwise Leaf.Before) :
    ts.Pairwise fun s t => s.stop ≤ t.stop := by
  cases formed with
  | branch _ _ children =>
    rw [Tree.leaves_branch, List.pairwise_flatMap] at ordered
    refine ordered.2.imp_of_mem fun {s t} hs ht before => ?_
    exact Position.le_trans ((children s hs).stop_le_start (children t ht) before)
      ((children t ht).start_le_stop (ordered.1 t ht))

/-! ## Below a branch -/

/-- The first leaf that ends at the position or behind it. -/
def scan (pos : Position) (leaves : List Focus) : Option Focus :=
  leaves.find? fun f => pos ≤ f.tree.stop

theorem leafAmong?_skip (passed : List Tree) :
    leafAmong? pos inTrivia rule path before passed.length (passed ++ c :: rest) =
      if !inTrivia && pos < c.start then none
      else leafIn? pos inTrivia (⟨rule, passed.reverse ++ before, rest⟩ :: path) c := by
  induction passed generalizing before with
  | nil => simp [leafAmong?]
  | cons s passed ih =>
    rw [List.length_cons, List.cons_append, leafAmong?, ih]
    simp

/-- In a tree that ends at the position or behind it, a scan finds a leaf of the tree. -/
theorem scan_found (formed : t.Formed g) (upTo : pos ≤ t.stop) (path : List Crumb) :
    ∃ f l, scan pos (Focus.leavesIn path t) = some f ∧ f.tree = .leaf l ∧ l ∈ t.leaves := by
  obtain ⟨last, tail, stop⟩ := formed.stop_eq
  have trees := Focus.leavesIn_trees path t
  have reached : (scan pos (Focus.leavesIn path t)).isSome := by
    have member : Tree.leaf last ∈ (Focus.leavesIn path t).map (·.tree) := by
      rw [trees]
      exact List.mem_map_of_mem (List.mem_of_getLast? tail)
    obtain ⟨f, hf, tree⟩ := List.mem_map.1 member
    rw [scan, List.find?_isSome]
    refine ⟨f, hf, decide_eq_true ?_⟩
    rw [tree, Tree.stop_leaf, ← stop]
    exact upTo
  obtain ⟨f, found⟩ := Option.isSome_iff_exists.1 reached
  have member : f.tree ∈ t.leaves.map Tree.leaf := by
    rw [← trees]
    exact List.mem_map_of_mem (List.mem_of_find?_eq_some found)
  obtain ⟨l, hl, tree⟩ := List.mem_map.1 member
  exact ⟨f, l, found, tree.symm, hl⟩

/-- Behind children that end before the position, a scan finds what it finds in the next one, if
that does not end before the position. -/
theorem scan_branch {passed : List Tree} (children : ∀ s ∈ passed, s.Formed g)
    (ordered : ∀ s ∈ passed, s.leaves.Pairwise Leaf.Before)
    (short : ∀ s ∈ passed, s.stop < pos) (formed : c.Formed g) (upTo : pos ≤ c.stop) :
    scan pos (Focus.leavesIn path (.branch rule (passed ++ c :: rest))) =
      scan pos (Focus.leavesIn (⟨rule, passed.reverse, rest⟩ :: path) c) := by
  obtain ⟨front, back, split, trees⟩ := Focus.leavesAmong_split rule path [] passed c rest
  have nothing : scan pos front = none := by
    refine List.find?_eq_none.2 fun f hf => ?_
    have member : f.tree ∈ (passed.flatMap Tree.leaves).map Tree.leaf := by
      rw [← trees]
      exact List.mem_map_of_mem hf
    obtain ⟨l, hl, tree⟩ := List.mem_map.1 member
    obtain ⟨s, hs, hl⟩ := List.mem_flatMap.1 hl
    have ends := (children s hs).le_stop (ordered s hs) l hl
    rw [← tree, Tree.stop_leaf, decide_eq_true_eq]
    exact Position.not_le.2 (Position.lt_of_le_of_lt ends (short s hs))
  obtain ⟨f, l, found, -⟩ := scan_found formed upTo (⟨rule, passed.reverse, rest⟩ :: path)
  rw [List.append_nil] at split
  rw [Focus.leavesIn, split]
  unfold scan at nothing found ⊢
  rw [List.find?_append, nothing, List.find?_append, found]
  rfl

/-- The leaf found below a branch is the one that a scan finds; without the trivia before a leaf
there is none if it starts behind the position. -/
theorem leafIn?_scan (formed : t.Formed g) (ordered : t.leaves.Pairwise Leaf.Before)
    (upTo : pos ≤ t.stop) (path : List Crumb)
    (reached : t.isLeaf = true → inTrivia = true ∨ t.start ≤ pos) :
    leafIn? pos inTrivia path t =
      (scan pos (Focus.leavesIn path t)).filter fun f => inTrivia || f.tree.start ≤ pos := by
  induction formed generalizing path with
  | leaf l =>
    have here : (inTrivia || (Tree.leaf l).start ≤ pos) = true := by simpa using reached rfl
    have found : scan pos [⟨.leaf l, path⟩] = some ⟨.leaf l, path⟩ := by
      simpa [scan] using upTo
    rw [leafIn?, Focus.leavesIn, found, Option.filter_some, if_pos here]
  | @branch rule children named some hchildren ih =>
    have whole : (Tree.branch rule children).Formed g := .branch named some hchildren
    obtain ⟨last, hlast⟩ := Option.isSome_iff_exists.1 (List.getLast?_isSome.2 some)
    have stop : (Tree.branch rule children).stop = last.stop := by
      obtain ⟨front, rfl⟩ := List.getLast?_eq_some_iff.1 hlast
      rw [Tree.stop, Tree.lastLeaf?, Tree.lastLeafOf?_concat]
      rfl
    obtain ⟨passed, c, rest, rfl, halved, short, reaches⟩ :=
      bisect_ok (children_sorted whole ordered) hlast (stop ▸ upTo)
    rw [Tree.leaves_branch, List.pairwise_flatMap] at ordered
    have formed : c.Formed g := hchildren c (by simp)
    have sorted : c.leaves.Pairwise Leaf.Before := ordered.1 c (by simp)
    rw [leafIn?, halved, leafAmong?_skip, List.append_nil,
      scan_branch (fun s hs => hchildren s (by simp [hs])) (fun s hs => ordered.1 s (by simp [hs]))
        short formed reaches]
    split
    · next behind =>
      -- all leaves of the child start behind the position
      obtain ⟨f, l, found, tree, member⟩ :=
        scan_found formed reaches (⟨rule, passed.reverse, rest⟩ :: path)
      have start : c.start ≤ f.tree.start := by
        rw [tree]
        exact formed.start_le sorted l member
      simp only [Bool.and_eq_true, Bool.not_eq_true', decide_eq_true_eq] at behind
      have late := Position.not_le.2 (Position.lt_of_lt_of_le behind.2 start)
      rw [found, Option.filter_some, if_neg (by simp [behind.1, late])]
    · next here =>
      refine ih c (by simp) sorted reaches _ fun _ => ?_
      cases inTrivia with
      | true => exact .inl rfl
      | false => exact .inr (Position.not_lt.1 (by simpa using here))

end Module

/-! ## Parsed sources -/

/-- Tokens start no earlier than the position that they are written from. -/
theorem Placed.le_start {pos : Position} {ts : List Token} (h : Placed pos ts) :
    ∀ t ∈ ts, pos ≤ t.start := by
  cases ts with
  | nil => simp
  | cons t ts =>
    refine List.forall_mem_cons.2 ⟨h.le_head, fun u hu => ?_⟩
    exact Position.le_trans h.le_head (Position.le_trans t.start_le_stop (h.stop_le u hu))

/-- The last token, if it is no block token, is the last leaf. -/
theorem Spells.last {ts : List Token} {t : Token} {ls : List Leaf} (h : Spells (ts ++ [t]) ls)
    (kept : ¬ (t.kind = .indent ∨ t.kind = .dedent)) :
    ∃ l, ls.getLast? = some l ∧ l.start = t.start ∧ l.value = t.value := by
  induction ts generalizing ls with
  | nil =>
    cases h with
    | keep value _ start rest =>
      cases rest
      exact ⟨_, rfl, start, value⟩
    | drop block => exact absurd block kept
  | cons u ts ih =>
    cases h with
    | keep _ _ _ rest =>
      obtain ⟨l, last, place⟩ := ih rest
      exact ⟨l, by rw [List.getLast?_cons, last]; rfl, place⟩
    | drop _ _ _ rest => exact ih rest

namespace Module

variable {g : Grammar} {m : Module} {source : Text} {pos : Position} {f : Focus}

/-- What the tree of a parsed source is like: a branch, its leaves in order, from the first position
on up to the end of the text. -/
structure Spans (g : Grammar) (source : Text) (m : Module) : Prop where
  formed : m.root.Formed g
  ordered : m.root.leaves.Pairwise Leaf.Before
  inner : m.root.isLeaf = false
  start : .start ≤ m.root.start
  stop : m.root.stop = Position.start.advancedBy (completed source)

theorem parse_spans (ok : g.Consistent) (lay : g.Layered) (closed : g.Sealed) (source : Text) :
    ∃ m, parse g source = .ok m ∧ m.Spans g source := by
  obtain ⟨m, parsed, spells, -⟩ := parse_of_layered ok lay source
  obtain ⟨formed, children, root⟩ := parse_formed ok lay closed parsed
  have placed := tokenize_placed (completed source)
  obtain ⟨ordered, places⟩ := spells.ordered placed.ordered
  refine ⟨m, parsed, formed, ordered, by rw [root]; rfl, ?_, ?_⟩
  · obtain ⟨l, first, start⟩ := formed.start_eq
    obtain ⟨t, ht, same, -⟩ := places l (List.mem_of_mem_head? first)
    rw [start, same]
    exact placed.le_start t ht
  · obtain ⟨body, last, tokens, marker, -⟩ := tokenize_eq (completed source)
    obtain ⟨l, final, stop⟩ := formed.stop_eq
    rw [tokens] at spells
    obtain ⟨l', final', start, value⟩ := spells.last (by simp [marker])
    obtain rfl : l = l' := Option.some.inj (final.symm.trans final')
    have behind := (tokenize_positions (completed source)).1 body last [] tokens
      (by simp [marker]) (by simp [marker])
    have text := concat_tokenize (completed source)
    rw [tokens, Token.concat_append] at text
    rw [stop, Leaf.stop, start, value, behind, ← Position.advancedBy_append, ← text]
    simp [Token.concat]

namespace Spans

/-- The scan of all leaves is the lookup by halves, up to the end of the text. -/
theorem leafAt?_eq (h : m.Spans g source) (from_ : .start ≤ pos) (upTo : pos ≤ m.root.stop)
    (inTrivia : Bool) : m.leafAt? pos inTrivia = (scan pos (Focus.root m.root).leaves).filter
      fun f => inTrivia || f.tree.start ≤ pos := by
  have inside : ¬ (pos < .start ∨ m.root.stop < pos) :=
    not_or.2 ⟨Position.not_lt.2 from_, Position.not_lt.2 upTo⟩
  rw [leafAt?, if_neg (by simp [h.inner, not_or.1 inside])]
  exact leafIn?_scan h.formed h.ordered upTo [] (by simp [h.inner])

theorem leafAt?_outside (outside : pos < .start ∨ m.root.stop < pos) (inTrivia : Bool) :
    m.leafAt? pos inTrivia = none := by
  rw [leafAt?, if_pos]
  simpa using .inl outside

/-- Outside the tree there is no statement. -/
theorem statementAt?_outside (h : m.Spans g source)
    (outside : pos < m.root.start ∨ m.root.stop < pos) : m.statementAt? pos = none := by
  obtain ⟨formed, ordered, inner, -, -⟩ := h
  rw [statementAt?]
  cases root : m.root with
  | leaf l => rw [root] at inner; cases inner
  | branch rule children =>
    rw [root] at formed ordered outside
    have passed : ∀ s ∈ children, s.covers pos = false := by
      intro s hs
      obtain ⟨before, after, rfl⟩ := List.append_of_mem hs
      let crumb : Crumb := ⟨rule, before.reverse, after⟩
      have fill : crumb.fill s = .branch rule (before ++ s :: after) := by
        simp [crumb, Crumb.fill]
      obtain ⟨earlier, later⟩ := Focus.fill_reaches (fill ▸ formed) (fill ▸ ordered)
      rw [fill] at earlier later
      rw [← Bool.not_eq_true, Tree.covers_iff, not_and_or, Position.not_le, Position.not_le]
      exact outside.imp (Position.lt_of_lt_of_le · earlier) (Position.lt_of_le_of_lt later)
    have skipped : statementAmong? pos rule [] [] (children ++ []) = none := by
      rw [statementAmong?_skip passed, statementAmong?]
    rw [List.append_nil] at skipped
    rw [statementIn?, skipped]

end Spans

end Module

namespace Completion

variable {m : Module} {pos : Position} {f : Focus}

/-- Without a statement and a leaf a position is out of bounds. -/
theorem locate_outOfBounds (statement : m.statementAt? pos = none)
    (leaf : m.leafAt? pos true = none) : locate m pos = .error (.outOfBounds pos) := by
  rw [locate, statement, leaf]
  rfl

/-- A position that a leaf is found for is not out of bounds. -/
theorem locate_inBounds (leaf : m.leafAt? pos true = some f) (p : Position) :
    locate m pos ≠ .error (.outOfBounds p) := by
  rcases locate_cases m pos with h | ⟨none, -⟩ | ⟨found, -, h | h⟩
  · simp [h]
  · rw [leaf, Option.or_eq_none_iff] at none
    cases none.2
  · simp [h]
  · simp [h]

/-- Before the start of a source and behind the end of its text, completed by a line end, there is
no leaf, and the position is out of bounds. At every other position take the first leaf that ends
there or behind: it is the leaf at the position, unless trivia is left out and it starts behind the
position; and the position is not out of bounds. -/
theorem leafAt?_scan (source : Text) : ∃ g m, Grammar.python = .ok g ∧
    Module.parse g source = .ok m ∧ ∀ pos,
      ((pos < .start ∨ Position.start.advancedBy (Module.completed source) < pos) →
        (∀ inTrivia, m.leafAt? pos inTrivia = none) ∧
          locate m pos = .error (.outOfBounds pos)) ∧
      (.start ≤ pos → pos ≤ Position.start.advancedBy (Module.completed source) →
        ∃ before f after, (Focus.root m.root).leaves = before ++ f :: after ∧
          (∀ e ∈ before, e.tree.stop < pos) ∧ pos ≤ f.tree.stop ∧
          m.leafAt? pos true = some f ∧
          m.leafAt? pos false = (if f.tree.start ≤ pos then some f else none) ∧
          ∀ p, locate m pos ≠ .error (.outOfBounds p)) := by
  obtain ⟨m, parsed, spans⟩ := Module.parse_spans Grammar.python_consistent Grammar.python_layered
    Grammar.python_sealed source
  refine ⟨_, m, Grammar.python_eq, parsed, fun pos => ⟨fun outside => ?_, fun from_ upTo => ?_⟩⟩
  · rw [← spans.stop] at outside
    refine ⟨Module.Spans.leafAt?_outside outside, ?_⟩
    refine locate_outOfBounds (spans.statementAt?_outside ?_)
      (Module.Spans.leafAt?_outside outside true)
    exact outside.imp_left (Position.lt_of_lt_of_le · spans.start)
  · rw [← spans.stop] at upTo
    obtain ⟨f, -, found, -⟩ := Module.scan_found spans.formed upTo []
    have leaf := spans.leafAt?_eq from_ upTo
    rw [Focus.leaves, Focus.root, found] at leaf
    obtain ⟨reaches, before, after, split, short⟩ := List.find?_eq_some_iff_append.1 found
    have within : m.leafAt? pos true = some f := by rw [leaf, Option.filter_some]; rfl
    refine ⟨before, f, after, split, fun e he => ?_, of_decide_eq_true reaches, within, ?_,
      locate_inBounds within⟩
    · exact Position.not_le.1 (by simpa using short e he)
    · rw [leaf, Option.filter_some]
      simp

/-- Where a block ends, and behind the end of a source without a line end. -/
theorem leafAt?_scan_block : ∃ g m, Grammar.python = .ok g ∧
    Module.parse g "if x:\n  y\nz".toList = .ok m ∧ .start ≤ (⟨3, 0⟩ : Position) ∧
    ⟨3, 0⟩ ≤ Position.start.advancedBy (Module.completed "if x:\n  y\nz".toList) ∧
    Position.start.advancedBy (Module.completed "if x:\n  y\nz".toList) < ⟨4, 1⟩ ∧
    (∃ f, ⟨3, 0⟩ ≤ f.tree.stop ∧ m.leafAt? ⟨3, 0⟩ true = some f ∧
      m.leafAt? ⟨3, 0⟩ false = (if f.tree.start ≤ ⟨3, 0⟩ then some f else none)) ∧
    locate m ⟨4, 1⟩ = .error (.outOfBounds ⟨4, 1⟩) := by
  obtain ⟨g, m, python, parsed, scans⟩ := leafAt?_scan "if x:\n  y\nz".toList
  have from_ : .start ≤ (⟨3, 0⟩ : Position) := by decide
  have upTo : ⟨3, 0⟩ ≤ Position.start.advancedBy (Module.completed "if x:\n  y\nz".toList) := by
    decide
  have behind : Position.start.advancedBy (Module.completed "if x:\n  y\nz".toList) < ⟨4, 1⟩ := by
    decide
  obtain ⟨-, f, -, -, -, reaches, within, bare, -⟩ := (scans ⟨3, 0⟩).2 from_ upTo
  exact ⟨g, m, python, parsed, from_, upTo, behind, ⟨f, reaches, within, bare⟩,
    ((scans ⟨4, 1⟩).1 (.inr behind)).2⟩

end Completion

end Caret

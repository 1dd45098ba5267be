import Caret.Proofs.ImportShapes
import Mathlib.Data.List.Flatten
/-!
# What has been typed of a `from` statement

The module path of a `from` statement that was set aside is put together from its dots and names, in
the order of the source, up to the position. With one exception no name behind `import` gets into
the path: a single name behind an open parenthesis, when nothing else follows, stands for the whole
list of names and is taken for a part of the path.

Results:
* `addFrom_eq`: the dots and names that the children of the statement add.
* `resolved_cases`: what is resolved for frames of each shape.
* `from_path`: what holds of the path, for every source and position.
* `name_in_parentheses`: the exception.
-/
namespace Caret.Completion

open Caret.Import

variable {pos : Position} {c : ImportContext} {us vs : List Tree} {f : Front}

namespace ImportContext

/-! ## Dots and names of children -/

/-- The names that a child of the statement adds. -/
def partNames (pos : Position) : Tree → List PathName
  | .branch rule children => if rule == "dotted_name" then upTo pos (pathNames children) else []
  | .leaf l => if l.kind = .name then [.ofLeaf l] else []

/-- The dots of a child of the statement. -/
def partDots : Tree → List Char
  | .branch .. => []
  | .leaf l => if l.kind = .operator .dot ∨ l.kind = .operator .ellipsis then l.value else []

theorem addFromPart_eq (pos : Position) (c : ImportContext) (t : Tree) :
    (addFromPart pos c t).names = c.names ++ partNames pos t ∧
      (addFromPart pos c t).level = c.level + (partDots t).length := by
  cases t with
  | branch rule children =>
    simp only [addFromPart, partNames, partDots]
    split <;> simp [addNames]
  | leaf l =>
    simp only [addFromPart, partNames, partDots]
    cases kind : l.kind with
    | operator o => by_cases dots : o = .dot ∨ o = .ellipsis <;> simp [dots]
    | keyword =>
      simp only [reduceCtorEq, if_false, or_self, List.append_nil, List.length_nil]
      split <;> simp
    | name => simp [addNames]
    | _ => simp

/-- The children that start before the position add their names and dots. -/
theorem addFrom_eq (pos : Position) (us : List Tree) (c : ImportContext) :
    (c.addFrom pos us).names =
        c.names ++ (us.takeWhile (·.start < pos)).flatMap (partNames pos) ∧
      (c.addFrom pos us).level =
        c.level + ((us.takeWhile (·.start < pos)).flatMap partDots).length := by
  unfold addFrom
  generalize us.takeWhile (·.start < pos) = us
  induction us generalizing c with
  | nil => simp
  | cons t us ih =>
    obtain ⟨names, level⟩ := addFromPart_eq pos c t
    obtain ⟨names', level'⟩ := ih (addFromPart pos c t)
    rw [List.foldl_cons, names', level', names, level]
    simp [Nat.add_assoc]

theorem addDotted_eq (pos : Position) (vs : List Tree) (c : ImportContext) :
    (c.addDotted pos vs).names = c.names ++ upTo pos (pathNames vs) ∧
      (c.addDotted pos vs).level = c.level := by
  unfold addDotted
  dsimp only
  split <;> exact ⟨rfl, rfl⟩

end ImportContext

/-! ## Names of a path -/

/-- The names among the leaves, in order. -/
def namesIn (ls : List Leaf) : List PathName := (ls.filter (·.kind = .name)).map .ofLeaf

theorem namesIn_append (ls ms : List Leaf) : namesIn (ls ++ ms) = namesIn ls ++ namesIn ms := by
  simp [namesIn]

theorem namesIn_flatMap (us : List Tree) :
    us.flatMap (fun t => namesIn t.leaves) = namesIn (us.flatMap Tree.leaves) := by
  induction us with
  | nil => rfl
  | cons t us ih => rw [List.flatMap_cons, List.flatMap_cons, namesIn_append, ih]

theorem names_cons (first dot name : Leaf) (rest : List (Leaf × Leaf)) :
    names first ((dot, name) :: rest) = .leaf first :: .leaf dot :: names name rest := rfl

/-- Every other child of a dotted name is a name, also if a dot stands at the end. -/
theorem pathNames_names (first : Leaf) (rest : List (Leaf × Leaf)) (last : List Tree)
    (short : last = [] ∨ ∃ t, last = [t]) :
    pathNames (names first rest ++ last) = (first :: rest.map (·.2)).map .ofLeaf := by
  unfold pathNames
  induction rest generalizing first with
  | nil => rcases short with rfl | ⟨t, rfl⟩ <;> rfl
  | cons p rest ih =>
    obtain ⟨dot, name⟩ := p
    have next := ih name
    simp only [names_cons, List.cons_append, everyOther, List.filterMap_cons, Tree.leaf?,
      Option.map_some, List.map_cons] at next ⊢
    rw [next]

theorem namesIn_names {first : Leaf} {rest : List (Leaf × Leaf)} (h : Dotted first rest) :
    namesIn ((names first rest).flatMap Tree.leaves) =
      (first :: rest.map (·.2)).map .ofLeaf := by
  induction rest generalizing first with
  | nil => simp [names, namesIn, h.1]
  | cons p rest ih =>
    obtain ⟨dot, name⟩ := p
    obtain ⟨isDot, isName⟩ : dot.IsOperator .dot ∧ name.kind = .name := h.2 _ List.mem_cons_self
    have next := ih ⟨isName, fun p hp => h.2 p (List.mem_cons_of_mem _ hp)⟩
    rw [names_cons, List.flatMap_cons, List.flatMap_cons, namesIn_append, namesIn_append, next]
    simp [namesIn, h.1, isDot.1]

/-- The names of a dotted name are those of its leaves. -/
theorem pathNames_eq {s : Nat} (h : DottedShape s vs) :
    pathNames vs = namesIn (vs.flatMap Tree.leaves) := by
  cases h with
  | start => rfl
  | @names first rest dotted =>
    rw [namesIn_names dotted, ← pathNames_names first rest [] (.inl rfl), List.append_nil]
  | @dot first dot rest dotted isDot =>
    rw [pathNames_names first rest _ (.inr ⟨_, rfl⟩), List.flatMap_append, namesIn_append,
      namesIn_names dotted]
    simp [namesIn, isDot.1]

/-- The leaves of a dotted name are names and dots. -/
theorem dotted_leaves {s : Nat} (h : DottedShape s vs) :
    ∀ l ∈ vs.flatMap Tree.leaves, l.kind = .name ∨ l.IsOperator .dot := by
  have inner {first : Leaf} {rest : List (Leaf × Leaf)} (dotted : Dotted first rest) :
      ∀ l ∈ (names first rest).flatMap Tree.leaves, l.kind = .name ∨ l.IsOperator .dot := by
    intro l hl
    obtain ⟨t, ht, hl⟩ := List.mem_flatMap.1 hl
    rcases List.mem_cons.1 ht with rfl | ht
    · rw [Tree.leaves_leaf, List.mem_singleton] at hl
      exact .inl (hl ▸ dotted.1)
    · obtain ⟨p, hp, ht⟩ := List.mem_flatMap.1 ht
      obtain ⟨isDot, isName⟩ := dotted.2 p hp
      simp only [List.mem_cons, List.not_mem_nil, or_false] at ht
      rcases ht with rfl | rfl <;> rw [Tree.leaves_leaf, List.mem_singleton] at hl <;> subst hl
      · exact .inr isDot
      · exact .inl isName
  cases h with
  | start => simp
  | names dotted => exact inner dotted
  | dot dotted isDot =>
    intro l hl
    rw [List.flatMap_append] at hl
    rcases List.mem_append.1 hl with hl | hl
    · exact inner dotted l hl
    · simp only [List.flatMap_singleton, Tree.leaves_leaf, List.mem_singleton] at hl
      exact .inr (hl ▸ isDot)

theorem path_leaves {t : Tree} (h : Path t) :
    ∀ l ∈ t.leaves, l.kind = .name ∨ l.IsOperator .dot := by
  cases h with
  | single name => simpa using .inl name
  | several dotted =>
    rw [Tree.leaves_branch]
    exact dotted_leaves (.names dotted)

/-! ## Children of the statement -/

/-- What can be a child of a `from` statement. -/
inductive FromPart : Tree → Prop
  | word {l : Leaf} (h : l.kind = .keyword) : FromPart (.leaf l)
  | dots {l : Leaf} (h : l.IsDots) : FromPart (.leaf l)
  | sign {l : Leaf} {o : Operator} (h : l.IsOperator o) (other : o ≠ .dot ∧ o ≠ .ellipsis) :
      FromPart (.leaf l)
  | path {t : Tree} (h : Path t) : FromPart t
  | imports {t : Tree} (h : Imports t) : FromPart t

theorem front_parts (h : f.Valid) : ∀ t ∈ f.trees, FromPart t := by
  intro t ht
  rcases List.mem_cons.1 ht with rfl | ht
  · exact .word h.word.1
  rcases List.mem_append.1 ht with ht | ht
  · obtain ⟨d, hd, rfl⟩ := List.mem_map.1 ht
    exact .dots (h.dots d hd)
  · exact .path (h.path t (Option.mem_toList.1 ht))

theorem behind_parts {s : Nat} (h : Behind s us) : ∀ t ∈ us, FromPart t := by
  cases h <;> simp only [List.mem_cons, List.not_mem_nil, or_false, forall_eq_or_imp, forall_eq,
    false_implies, implies_true]
  case star h => exact .sign h (by decide)
  case names h => exact .imports h
  case opened h => exact .sign h (by decide)
  case inside h ht => exact ⟨.sign h (by decide), .imports ht⟩
  case closed h ht hc => exact ⟨.sign h (by decide), .imports ht, .sign hc (by decide)⟩

theorem from_parts {s : Nat} (h : FromShape s us) : ∀ t ∈ us, FromPart t := by
  cases h with
  | start => simp
  | dots _ front => exact front_parts front
  | path front => exact front_parts front
  | behind front hw more =>
    intro t ht
    rcases List.mem_append.1 ht with ht | ht
    · exact front_parts front t ht
    rcases List.mem_cons.1 ht with rfl | ht
    · exact .word hw.1
    · exact behind_parts more t ht

/-- A list of imported names is no dotted name. -/
theorem imports_cases {t : Tree} (h : Imports t) :
    (∃ l, t = .leaf l ∧ l.kind = .name) ∨ ∃ rule children, t = .branch rule children ∧
      rule ≠ "dotted_name" := by
  cases h with
  | single bound =>
    cases bound with
    | plain name =>
      obtain ⟨l, rfl, kind⟩ := name
      exact .inl ⟨l, rfl, kind⟩
    | renamed => exact .inr ⟨_, _, rfl, by decide⟩
  | several => exact .inr ⟨_, _, rfl, by decide⟩

namespace ImportContext

/-- The names that a child adds are names of its leaves, in order. -/
theorem partNames_sublist {t : Tree} (h : FromPart t) :
    (partNames pos t).Sublist (namesIn t.leaves) := by
  have leaf (l : Leaf) : (partNames pos (.leaf l)).Sublist (namesIn (Tree.leaf l).leaves) := by
    by_cases name : l.kind = .name <;> simp [partNames, namesIn, name]
  cases h with
  | word | dots | sign => exact leaf _
  | path h =>
    cases h with
    | single => exact leaf _
    | several dotted =>
      rw [partNames, if_pos (beq_self_eq_true _), pathNames_eq (.names dotted), Tree.leaves_branch]
      exact List.filter_sublist
  | imports h =>
    rcases imports_cases h with ⟨l, rfl, -⟩ | ⟨rule, children, rfl, other⟩
    · exact leaf l
    · simp [partNames, other]

/-- They start no later than the position. -/
theorem partNames_le {t : Tree} (h : t.start < pos) : ∀ n ∈ partNames pos t, n.start ≤ pos := by
  intro n hn
  cases t with
  | branch rule children =>
    rw [partNames] at hn
    split at hn
    · exact of_decide_eq_true (List.mem_filter.1 hn).2
    · cases hn
  | leaf l =>
    rw [partNames] at hn
    split at hn
    · rw [List.mem_singleton.1 hn]
      simp only [Position.lt_def, Position.le_def, PathName.ofLeaf, Tree.start,
        Tree.firstLeaf?, Option.map_some, Option.getD_some] at h ⊢
      omega
    · cases hn

end ImportContext

/-! ## The level -/

/-- The children that are dots, or three dots. -/
def ownDots (us : List Tree) : List Leaf :=
  (us.filterMap Tree.leaf?).filter fun l => l.kind = .operator .dot ∨ l.kind = .operator .ellipsis

/-- The dots stand in front: what follows them adds none. -/
theorem from_split {s : Nat} (h : FromShape s us) :
    ∃ (ls : List Leaf) (rest : List Tree), us = ls.map .leaf ++ rest ∧
      ∀ t ∈ rest, ImportContext.partDots t = [] := by
  have path {f : Front} (valid : f.Valid) :
      ∀ t ∈ f.path.toList, ImportContext.partDots t = [] := by
    intro t ht
    cases valid.path t (Option.mem_toList.1 ht) with
    | single name => simp [ImportContext.partDots, name]
    | several => rfl
  have imports {t : Tree} (h : Imports t) : ImportContext.partDots t = [] := by
    rcases imports_cases h with ⟨l, rfl, name⟩ | ⟨_, _, rfl, -⟩
    · simp [ImportContext.partDots, name]
    · rfl
  have sign {l : Leaf} {o : Operator} (h : l.IsOperator o) (other : o ≠ .dot ∧ o ≠ .ellipsis) :
      ImportContext.partDots (.leaf l) = [] := by
    simp [ImportContext.partDots, h.1, other]
  have front {f : Front} (valid : f.Valid) :
      f.trees = (f.word :: f.dots).map .leaf ++ f.path.toList := rfl
  cases h with
  | start => exact ⟨[], [], rfl, by simp⟩
  | dots _ valid => exact ⟨_, _, front valid, path valid⟩
  | path valid => exact ⟨_, _, front valid, path valid⟩
  | @behind _ f word us valid hw more =>
    refine ⟨_, f.path.toList ++ .leaf word :: us, by rw [front valid, List.append_assoc], ?_⟩
    intro t ht
    rcases List.mem_append.1 ht with ht | ht
    · exact path valid t ht
    rcases List.mem_cons.1 ht with rfl | ht
    · simp [ImportContext.partDots, hw.1]
    cases more with
    | nothing => cases ht
    | star h => exact List.mem_singleton.1 ht ▸ sign h (by decide)
    | names h => exact List.mem_singleton.1 ht ▸ imports h
    | opened h => exact List.mem_singleton.1 ht ▸ sign h (by decide)
    | inside h h' =>
      simp only [List.mem_cons, List.not_mem_nil, or_false] at ht
      rcases ht with rfl | rfl
      · exact sign h (by decide)
      · exact imports h'
    | closed h h' hc =>
      simp only [List.mem_cons, List.not_mem_nil, or_false] at ht
      rcases ht with rfl | rfl | rfl
      · exact sign h (by decide)
      · exact imports h'
      · exact sign hc (by decide)

/-- With dots in front only, the dots of the children before a position can be picked out. -/
theorem dots_taken {ls : List Leaf} {rest : List Tree} (ordered : ls.Pairwise Leaf.Before)
    (none : ∀ t ∈ rest, ImportContext.partDots t = []) (pos : Position) :
    ((ls.map Tree.leaf ++ rest).takeWhile (·.start < pos)).flatMap ImportContext.partDots =
      ((ls.map Tree.leaf ++ rest).filter (·.start < pos)).flatMap ImportContext.partDots := by
  induction ls with
  | nil =>
    rw [List.map_nil, List.nil_append,
      List.flatMap_eq_nil_iff.2 fun t ht => none t ((List.takeWhile_subset _) ht),
      List.flatMap_eq_nil_iff.2 fun t ht => none t (List.mem_of_mem_filter ht)]
  | cons l ls ih =>
    obtain ⟨first, ordered⟩ := List.pairwise_cons.1 ordered
    rw [List.map_cons, List.cons_append, List.takeWhile_cons, List.filter_cons]
    split
    · rw [List.flatMap_cons, List.flatMap_cons, ih ordered]
    · next late =>
      rw [List.flatMap_nil, eq_comm, List.flatMap_eq_nil_iff]
      intro t ht
      obtain ⟨ht, early⟩ := List.mem_filter.1 ht
      rcases List.mem_append.1 ht with ht | ht
      · -- a later leaf does not start before the position
        obtain ⟨m, hm, rfl⟩ := List.mem_map.1 ht
        have wide := l.start_le_stop
        have before : l.stop ≤ m.start := first m hm
        simp only [decide_eq_true_eq, Tree.start, Tree.firstLeaf?, Option.map_some,
          Option.getD_some, Position.lt_def, Position.le_def] at *
        omega
      · exact none t ht

/-- The dots of the children that start before a position. -/
theorem dots_filter (us : List Tree) (pos : Position) :
    (us.filter (·.start < pos)).flatMap ImportContext.partDots =
      ((ownDots us).filter (·.start < pos)).flatMap (·.value) := by
  induction us with
  | nil => rfl
  | cons t us ih =>
    cases t with
    | branch rule children =>
      have same : ownDots (.branch rule children :: us) = ownDots us := rfl
      rw [same, List.filter_cons]
      split
      · rw [List.flatMap_cons]
        exact ih
      · exact ih
    | leaf l =>
      have start : (Tree.leaf l).start = l.start := rfl
      unfold ownDots at ih ⊢
      rw [List.filter_cons, List.filterMap_cons_some (by rfl), List.filter_cons, start]
      by_cases dots : l.kind = .operator .dot ∨ l.kind = .operator .ellipsis <;>
        by_cases early : l.start < pos <;>
        simp [dots, early, ImportContext.partDots, ih]

/-- The dots of the children that are taken in are those of the children that are dots and start
before the position. -/
theorem dots_before {s : Nat} (h : FromShape s us)
    (ordered : (us.flatMap Tree.leaves).Pairwise Leaf.Before) (pos : Position) :
    (us.takeWhile (·.start < pos)).flatMap ImportContext.partDots =
      ((ownDots us).filter (·.start < pos)).flatMap (·.value) := by
  obtain ⟨ls, rest, rfl, none⟩ := from_split h
  have front : ls.Pairwise Leaf.Before := by
    rw [List.flatMap_append] at ordered
    have inOrder := (List.pairwise_append.1 ordered).1
    simpa [List.flatMap_map] using inOrder
  rw [dots_taken front none, dots_filter]

/-! ## Names and the word `import` -/

/-- The name stands before the word `import`, if that is among the leaves. -/
def StartsBefore (ls : List Leaf) (n : PathName) : Prop :=
  ∀ k ∈ ls, k.IsWord .kwImport → n.start < k.start

/-- The name is a single one behind an open parenthesis, and nothing follows it. -/
def AloneInParentheses (us : List Tree) (n : PathName) : Prop :=
  ∃ front k p l, us = front ++ [.leaf k, .leaf p, .leaf l] ∧ k.IsWord .kwImport ∧
    p.IsOperator .lPar ∧ n = .ofLeaf l

theorem mem_namesIn {ls : List Leaf} {n : PathName} :
    n ∈ namesIn ls ↔ ∃ l ∈ ls, l.kind = .name ∧ n = .ofLeaf l := by
  simp only [namesIn, List.mem_map, List.mem_filter, decide_eq_true_eq]
  constructor
  · rintro ⟨l, ⟨hl, name⟩, rfl⟩
    exact ⟨l, hl, name, rfl⟩
  · rintro ⟨l, hl, name, rfl⟩
    exact ⟨l, ⟨hl, name⟩, rfl⟩

/-- Names among leaves in front of the word start before it. -/
theorem startsBefore_of_front {ls ms : List Leaf} (ordered : (ls ++ ms).Pairwise Leaf.Before)
    (wide : ∀ l ∈ ls ++ ms, l.kind = .name → l.start < l.stop)
    (none : ∀ l ∈ ls, ¬ l.IsWord .kwImport) {n : PathName} (hn : n ∈ namesIn ls) :
    StartsBefore (ls ++ ms) n := by
  obtain ⟨l, hl, name, rfl⟩ := mem_namesIn.1 hn
  intro k hk word
  rcases List.mem_append.1 hk with hk | hk
  · exact absurd word (none k hk)
  · have before : l.stop ≤ k.start := (List.pairwise_append.1 ordered).2.2 l hl k hk
    have own := wide l (List.mem_append_left _ hl) name
    simp only [PathName.ofLeaf, Position.lt_def, Position.le_def] at *
    omega

theorem not_word_of_path {l : Leaf} (h : l.kind = .name ∨ l.IsOperator .dot) :
    ¬ l.IsWord .kwImport := by
  rintro ⟨word, -⟩
  rcases h with name | ⟨dot, -⟩
  · rw [word] at name
    cases name
  · rw [word] at dot
    cases dot

/-- The front of the statement comes before the word `import`. -/
theorem front_leaves (h : f.Valid) : ∀ l ∈ f.trees.flatMap Tree.leaves, ¬ l.IsWord .kwImport := by
  intro l hl
  obtain ⟨t, ht, hl⟩ := List.mem_flatMap.1 hl
  rcases List.mem_cons.1 ht with rfl | ht
  · rw [Tree.leaves_leaf, List.mem_singleton] at hl
    subst hl
    rintro ⟨-, value⟩
    rw [h.word.2] at value
    exact absurd value (by decide)
  rcases List.mem_append.1 ht with ht | ht
  · obtain ⟨d, hd, rfl⟩ := List.mem_map.1 ht
    rw [Tree.leaves_leaf, List.mem_singleton] at hl
    subst hl
    rintro ⟨kind, -⟩
    rcases h.dots l hd with ⟨dots, -⟩ | ⟨dots, -⟩ <;> (rw [kind] at dots; cases dots)
  · exact not_word_of_path (path_leaves (h.path t (Option.mem_toList.1 ht)) l hl)

/-- A name that a child of the statement adds is in front of the word `import`, or alone in
parentheses. -/
theorem names_front {s : Nat} (pos : Position) (h : FromShape s us) (goesOn : s ≠ 6) :
    ∃ ls ms, us.flatMap Tree.leaves = ls ++ ms ∧ (∀ l ∈ ls, ¬ l.IsWord .kwImport) ∧
      ∀ t ∈ us, ∀ n ∈ ImportContext.partNames pos t, n ∈ namesIn ls ∨
        AloneInParentheses us n := by
  have inFront {f : Front} (valid : f.Valid) : ∀ t ∈ f.trees,
      ∀ n ∈ ImportContext.partNames pos t, n ∈ namesIn (f.trees.flatMap Tree.leaves) := by
    intro t ht n hn
    have own := (ImportContext.partNames_sublist (front_parts valid t ht)).subset hn
    obtain ⟨l, hl, name, rfl⟩ := mem_namesIn.1 own
    exact mem_namesIn.2 ⟨l, List.mem_flatMap.2 ⟨t, ht, hl⟩, name, rfl⟩
  have whole {f : Front} (valid : f.Valid) : ∃ ls ms,
      f.trees.flatMap Tree.leaves = ls ++ ms ∧ (∀ l ∈ ls, ¬ l.IsWord .kwImport) ∧
        ∀ t ∈ f.trees, ∀ n ∈ ImportContext.partNames pos t, n ∈ namesIn ls ∨
          AloneInParentheses f.trees n :=
    ⟨_, [], (List.append_nil _).symm, front_leaves valid,
      fun t ht n hn => .inl (inFront valid t ht n hn)⟩
  cases h with
  | start => exact ⟨[], [], rfl, by simp, by simp⟩
  | dots _ valid => exact whole valid
  | path valid => exact whole valid
  | @behind _ f word us valid hw more =>
    refine ⟨_, _, List.flatMap_append, front_leaves valid, fun t ht n hn => ?_⟩
    rcases List.mem_append.1 ht with ht | ht
    · exact .inl (inFront valid t ht n hn)
    have other {l : Leaf} (kind : l.kind ≠ .name) :
        n ∉ ImportContext.partNames pos (.leaf l) := by
      simp [ImportContext.partNames, kind]
    rcases List.mem_cons.1 ht with rfl | ht
    · exact absurd hn (other (by simp [hw.1]))
    cases more with
    | nothing => cases ht
    | star => exact absurd rfl goesOn
    | names => exact absurd rfl goesOn
    | closed => exact absurd rfl goesOn
    | opened ho =>
      rw [List.mem_singleton.1 ht] at hn
      exact absurd hn (other (by simp [ho.1]))
    | @inside o t' ho ht' =>
      simp only [List.mem_cons, List.not_mem_nil, or_false] at ht
      rcases ht with rfl | rfl
      · exact absurd hn (other (by simp [ho.1]))
      · rcases imports_cases ht' with ⟨l, rfl, name⟩ | ⟨rule, children, rfl, named⟩
        · rw [ImportContext.partNames, if_pos name, List.mem_singleton] at hn
          exact .inr ⟨f.trees, word, o, l, rfl, hw, ho, hn⟩
        · simp [ImportContext.partNames, named] at hn

/-! ## Statements that were set aside -/

/-- Own dots are dots. -/
theorem ownDots_count {s : Nat} (h : FromShape s us) (pos : Position) :
    (((ownDots us).filter (·.start < pos)).flatMap (·.value)).length =
      (((ownDots us).filter (·.start < pos)).flatMap (·.value)).count '.' := by
  rw [eq_comm, List.count_eq_length]
  intro c hc
  obtain ⟨l, hl, hc⟩ := List.mem_flatMap.1 hc
  obtain ⟨own, kind⟩ := List.mem_filter.1 (List.mem_of_mem_filter hl)
  obtain ⟨t, ht, leaf⟩ := List.mem_filterMap.1 own
  rw [decide_eq_true_eq] at kind
  cases t with
  | branch => cases leaf
  | leaf l' =>
    cases leaf
    have dots : l.IsDots := by
      cases from_parts h _ ht with
      | word word => rw [word] at kind; rcases kind with kind | kind <;> cases kind
      | dots dots => exact dots
      | sign sign other =>
        rw [sign.1] at kind
        rcases kind with kind | kind <;> cases kind <;> simp at other
      | path path =>
        cases path with
        | single name => rw [name] at kind; rcases kind with kind | kind <;> cases kind
      | imports imports =>
        rcases imports_cases imports with ⟨_, same, name⟩ | ⟨_, _, same, -⟩ <;> cases same
        rw [name] at kind
        rcases kind with kind | kind <;> cases kind
    rcases dots with ⟨-, value⟩ | ⟨-, value⟩
    · rw [value] at hc
      simpa [Operator.spelling, eq_comm] using hc
    · rw [value] at hc
      simpa [Operator.spelling, eq_comm] using hc

theorem resolveImport_names {frames : List (String × List Tree)}
    (inner : ∀ fr ∈ frames, fr.1 ∈ ["import_as_names", "import_as_name"]) :
    resolveImport pos c frames = .resolved c := by
  induction frames with
  | nil => rfl
  | cons fr frames ih =>
    obtain ⟨rule, nodes⟩ := fr
    have own : rule ∈ ["import_as_names", "import_as_name"] := inner _ List.mem_cons_self
    have rest := ih fun fr hf => inner fr (List.mem_cons_of_mem _ hf)
    simp only [List.mem_cons, List.not_mem_nil, or_false] at own
    rcases own with rfl | rfl <;> exact rest

/-- The context holds the module path of the statement up to the position: names of the statement in
order, none of which starts behind the position, and as many dots as the statement has before its
path and the position. A name that does not start before the word `import` is alone in
parentheses. -/
structure ModulePath (s : BrokenStatement) (pos : Position) (c : ImportContext) : Prop where
  names : c.names.Sublist (namesIn s.leaves)
  order : c.names.Pairwise (·.start < ·.start)
  upTo : ∀ n ∈ c.names, n.start ≤ pos
  level : c.level = (((ownDots s.nodes).filter (·.start < pos)).flatMap (·.value)).count '.'
  front : ∀ n ∈ c.names, StartsBefore s.leaves n ∨ AloneInParentheses s.nodes n

theorem namesIn_ordered {ls : List Leaf} (ordered : ls.Pairwise Leaf.Before)
    (wide : ∀ l ∈ ls, l.kind = .name → l.start < l.stop) :
    (namesIn ls).Pairwise (·.start < ·.start) := by
  rw [namesIn, List.pairwise_map]
  refine (ordered.filter _).imp_of_mem fun {l m} hl hm before => ?_
  obtain ⟨hl, name⟩ := List.mem_filter.1 hl
  have own := wide l hl (of_decide_eq_true name)
  have before : l.stop ≤ m.start := before
  simp only [PathName.ofLeaf, Position.lt_def, Position.le_def] at *
  omega

/-- What is resolved for the frames of a `from` statement: the dots and names of its children, and
those of a path that is being read. -/
theorem resolved_cases {frames : List (String × List Tree)} (h : BrokenFrom frames)
    (pos : Position) : ∃ s us rest, frames = ("import_from", us) :: rest ∧ FromShape s us ∧ s ≠ 6 ∧
      ((∃ vs s', rest = [("dotted_name", vs)] ∧ DottedShape s' vs ∧
        (∀ l ∈ us.flatMap Tree.leaves, ¬ l.IsWord .kwImport) ∧
        resolveImport pos .empty frames =
          .resolved ((ImportContext.empty.addFrom pos us).addDotted pos vs)) ∨
      resolveImport pos .empty frames = .resolved (ImportContext.empty.addFrom pos us)) := by
  cases h with
  | alone shape goesOn => exact ⟨_, _, _, rfl, shape, goesOn, .inr rfl⟩
  | path valid none dotted =>
    exact ⟨2, _, _, rfl, .dots (.inr rfl) valid none, by decide,
      .inl ⟨_, _, rfl, dotted, front_leaves valid, rfl⟩⟩
  | names valid hw opened inner =>
    rcases opened with rfl | ⟨o, rfl, ho⟩
    · exact ⟨4, _, _, rfl, .behind valid hw .nothing, by decide, .inr (resolveImport_names inner)⟩
    · exact ⟨5, _, _, rfl, .behind valid hw (.opened ho), by decide,
        .inr (resolveImport_names inner)⟩

/-- The names that a `from` adds are names of the part of it that adds them. -/
theorem mem_addFrom {n : PathName} (hn : n ∈ (ImportContext.empty.addFrom pos us).names) :
    ∃ t ∈ us, t.start < pos ∧ n ∈ ImportContext.partNames pos t := by
  rw [(ImportContext.addFrom_eq pos us .empty).1] at hn
  obtain ⟨t, ht, hn⟩ := List.mem_flatMap.1 hn
  have early := List.mem_takeWhile_imp ht
  exact ⟨t, (List.takeWhile_subset _) ht, of_decide_eq_true early, hn⟩

theorem addFrom_sublist {state : Nat} (shape : FromShape state us) :
    (ImportContext.empty.addFrom pos us).names.Sublist (namesIn (us.flatMap Tree.leaves)) := by
  have taken : (us.takeWhile (·.start < pos)).flatMap (ImportContext.partNames pos) =
      (ImportContext.empty.addFrom pos us).names := by
    rw [(ImportContext.addFrom_eq pos us .empty).1]
    rfl
  rw [← taken, ← namesIn_flatMap]
  exact (List.Sublist.flatMap_right _ fun t ht => ImportContext.partNames_sublist
    (from_parts shape t ((List.takeWhile_subset _) ht))).trans
      ((List.takeWhile_sublist _).flatMap _)

theorem addFrom_level {state : Nat} (shape : FromShape state us)
    (inOrder : (us.flatMap Tree.leaves).Pairwise Leaf.Before) :
    (ImportContext.empty.addFrom pos us).level =
      (((ownDots us).filter (·.start < pos)).flatMap (·.value)).count '.' := by
  rw [(ImportContext.addFrom_eq pos us .empty).2, dots_before shape inOrder, ownDots_count shape]
  exact Nat.zero_add _

/-- The path of a `from` statement that was set aside. -/
theorem modulePath_resolved {s : BrokenStatement} (h : BrokenFrom s.frames)
    (ordered : s.leaves.Pairwise Leaf.Before)
    (wide : ∀ l ∈ s.leaves, l.kind = .name → l.start < l.stop) (pos : Position) :
    ∃ c, resolveImport pos .empty s.frames = .resolved c ∧ ModulePath s pos c := by
  obtain ⟨state, us, rest, frames, shape, goesOn, resolved⟩ := resolved_cases h pos
  have nodes : s.nodes = us := by rw [BrokenStatement.nodes, frames]; rfl
  have leaves : s.leaves =
      us.flatMap Tree.leaves ++ (rest.flatMap (·.2)).flatMap Tree.leaves := by
    rw [BrokenStatement.leaves, frames, List.flatMap_cons, List.flatMap_append]
  obtain ⟨ls, ms, split, none, front⟩ := names_front pos shape goesOn
  have inOrder : (us.flatMap Tree.leaves).Pairwise Leaf.Before := by
    rw [leaves] at ordered
    exact (List.pairwise_append.1 ordered).1
  have levelOf : (ImportContext.empty.addFrom pos us).level =
      (((ownDots s.nodes).filter (·.start < pos)).flatMap (·.value)).count '.' := by
    rw [nodes]
    exact addFrom_level shape inOrder
  have ownUpTo : ∀ n ∈ (ImportContext.empty.addFrom pos us).names, n.start ≤ pos := by
    intro n hn
    obtain ⟨t, -, early, hn⟩ := mem_addFrom hn
    exact ImportContext.partNames_le early n hn
  rcases resolved with ⟨vs, state', rfl, dotted, noWord, resolved⟩ | resolved
  · obtain ⟨namesVs, levelVs⟩ :=
      ImportContext.addDotted_eq pos vs (ImportContext.empty.addFrom pos us)
    have rest : s.leaves = us.flatMap Tree.leaves ++ vs.flatMap Tree.leaves := by
      simpa using leaves
    have sub : ((ImportContext.empty.addFrom pos us).addDotted pos vs).names.Sublist
        (namesIn s.leaves) := by
      rw [namesVs, rest, namesIn_append, pathNames_eq dotted]
      exact (addFrom_sublist shape).append List.filter_sublist
    have none : ∀ l ∈ s.leaves, ¬ l.IsWord .kwImport := by
      intro l hl
      rw [rest] at hl
      rcases List.mem_append.1 hl with hl | hl
      · exact noWord l hl
      · exact not_word_of_path (dotted_leaves dotted l hl)
    refine ⟨_, resolved, sub, (namesIn_ordered ordered wide).sublist sub, fun n hn => ?_,
      levelVs.trans levelOf, fun n _ => .inl fun k hk word => absurd word (none k hk)⟩
    rw [namesVs] at hn
    rcases List.mem_append.1 hn with hn | hn
    · exact ownUpTo n hn
    · exact of_decide_eq_true (List.mem_filter.1 hn).2
  · have sub : (ImportContext.empty.addFrom pos us).names.Sublist (namesIn s.leaves) := by
      rw [leaves, namesIn_append]
      exact (addFrom_sublist shape).trans (List.sublist_append_left _ _)
    refine ⟨_, resolved, sub, (namesIn_ordered ordered wide).sublist sub, ownUpTo, levelOf,
      fun n hn => ?_⟩
    obtain ⟨t, ht, -, hn⟩ := mem_addFrom hn
    rw [nodes]
    refine (front t ht n hn).imp_left fun hn => ?_
    rw [leaves, split, List.append_assoc] at ordered wide ⊢
    exact startsBefore_of_front ordered wide none hn

/-- With the Python grammar take any source, a `from` statement of it that was set aside, and a
position inside the statement. The module path typed so far is made of names of the statement, in
their order, none of which starts behind the position; its level is the number of dots before the
path that start before the position. Each name starts before the word `import`, unless it is a
single name behind an open parenthesis that nothing follows. -/
theorem from_path (source : Text) :
    ∃ g, Grammar.python = .ok g ∧ ∃ m, Module.parse g source = .ok m ∧
      ∀ s ∈ m.broken, s.title = "import_from" → ∀ pos, s.start < pos → pos ≤ s.stop →
        ∃ c, importContext s pos = .resolved c ∧ ModulePath s pos c := by
  refine ⟨_, Grammar.python_eq, ?_⟩
  obtain ⟨m, parsed, -⟩ := Module.parse_of_layered Grammar.python_consistent
    Grammar.python_layered source
  refine ⟨m, parsed, fun s hs title pos after upTo => ?_⟩
  obtain ⟨tree, broken⟩ := Module.parse_regular Grammar.python_consistent Grammar.python_layered
    Grammar.python_sealed Grammar.python_secluded parsed
  obtain ⟨regular, part⟩ := broken s hs
  obtain ⟨r, known, name, unfinished⟩ := regular (by simp [title, Grammar.importParts])
  have shape := unfinished_from unfinished (name.trans title)
  have ordered : s.leaves.Pairwise Leaf.Before :=
    (Module.leaves_ordered Grammar.python_consistent Grammar.python_layered parsed).sublist part
  have wide : ∀ l ∈ s.leaves, l.kind = .name → l.start < l.stop := fun l hl kind =>
    (tree.name (part.subset hl) kind).start_lt_stop
  obtain ⟨c, resolved, path⟩ := modulePath_resolved shape ordered wide pos
  have applies : isImportAt s pos = true := by
    simp [isImportAt, title, importRules, after, upTo]
  exact ⟨c, by rw [importContext, if_pos applies, resolved], path⟩

/-- In `from ..a.b import (c, d` the path is `..a.b` at the end of the line. -/
theorem from_path_list : ∃ g m s c, Grammar.python = .ok g ∧
    Module.parse g "from ..a.b import (c, d".toList = .ok m ∧ s ∈ m.broken ∧
    s.title = "import_from" ∧ s.start < ⟨1, 23⟩ ∧ ⟨1, 23⟩ ≤ s.stop ∧
    importContext s ⟨1, 23⟩ = .resolved c ∧ ModulePath s ⟨1, 23⟩ c ∧
    c.dottedPath = "..a.b".toList := by
  obtain ⟨g, python, m, parsed, answers⟩ := from_path "from ..a.b import (c, d".toList
  have tables : g = Grammar.pythonTables := by
    rw [Grammar.python_eq, Except.ok.injEq] at python
    exact python.symm
  subst tables
  have found : (Module.parse Grammar.pythonTables "from ..a.b import (c, d".toList).toOption.any
      (fun m => m.broken.any fun s => s.title == "import_from" && decide (s.start < ⟨1, 23⟩) &&
        decide (⟨1, 23⟩ ≤ s.stop) &&
        (importContext s ⟨1, 23⟩).context?.all (·.dottedPath == "..a.b".toList)) = true := by
    decide +kernel
  rw [parsed] at found
  obtain ⟨s, hs, checked⟩ := List.any_eq_true.1 found
  simp only [Bool.and_eq_true, beq_iff_eq, decide_eq_true_eq] at checked
  obtain ⟨⟨⟨title, after⟩, upTo⟩, written⟩ := checked
  obtain ⟨c, resolved, own⟩ := answers s hs title _ after upTo
  rw [resolved] at written
  exact ⟨_, m, s, c, python, parsed, hs, title, after, upTo, resolved, own,
    by simpa [ImportResolution.context?] using written⟩

/-- In `from a import (b` the imported name is taken for a part of the path. -/
theorem name_in_parentheses : ∃ g m s c, Grammar.python = .ok g ∧
    Module.parse g "from a import (b\n".toList = .ok m ∧ s ∈ m.broken ∧
    s.title = "import_from" ∧ s.start < ⟨1, 16⟩ ∧ ⟨1, 16⟩ ≤ s.stop ∧
    importContext s ⟨1, 16⟩ = .resolved c ∧ c.dottedPath = "a.b".toList ∧
    ∃ n ∈ c.names, ¬ StartsBefore s.leaves n := by
  obtain ⟨m, parsed, -⟩ := Module.parse_of_layered Grammar.python_consistent
    Grammar.python_layered "from a import (b\n".toList
  have found : (Module.parse Grammar.pythonTables "from a import (b\n".toList).toOption.any
      (fun m => m.broken.any fun s => s.title == "import_from" && decide (s.start < ⟨1, 16⟩) &&
        decide (⟨1, 16⟩ ≤ s.stop) && (importContext s ⟨1, 16⟩).context?.any fun c =>
          c.dottedPath == "a.b".toList && c.names.any fun n => s.leaves.any fun k =>
            k.kind == .keyword && k.value == "import".toList && !decide (n.start < k.start)) =
        true := by
    decide +kernel
  rw [parsed] at found
  obtain ⟨s, hs, checked⟩ := List.any_eq_true.1 found
  simp only [Bool.and_eq_true, beq_iff_eq, decide_eq_true_eq] at checked
  obtain ⟨⟨⟨title, after⟩, upTo⟩, wrong⟩ := checked
  cases resolution : importContext s ⟨1, 16⟩ with
  | notApplicable => rw [resolution] at wrong; cases wrong
  | onImportKeyword => rw [resolution] at wrong; cases wrong
  | resolved c =>
    simp only [resolution, ImportResolution.context?, Option.any_some, Bool.and_eq_true,
      beq_iff_eq, List.any_eq_true, Bool.not_eq_true', decide_eq_false_iff_not] at wrong
    obtain ⟨written, n, hn, k, hk, word, behind⟩ := wrong
    exact ⟨_, m, s, c, Grammar.python_eq, parsed, hs, title, after, upTo, resolution, written, n,
      hn, fun before => behind (before k hk word)⟩

end Caret.Completion

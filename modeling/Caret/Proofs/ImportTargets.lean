import Caret.Proofs.ImportContexts
import Caret.Proofs.Lookup
/-!
# The path to a name in a finished import

The name under the cursor is found among the leaves of the tree. From there the way up leads to the
import, and what stands before the name in the import decides the path: in an `import` statement the
names and dots right before it, in a `from` statement all names before the word `import`. No two
names touch, so the name under the cursor is the only one there.

Results:
* `Under`: where a leaf is in a tree, and what is before it.
* `nameAt?_leaf`: the name at a position is the name that covers it.
* `path_place`, `bound_place`, `series_place`: the names in paths and lists.
* `target_of_import`, `target_of_from`: the path in statements of each kind.
* `import_target`: the path for every source, import, name and position.
-/
namespace Caret

/-! ## Places of leaves -/

/-- The leaf is in the tree, with these leaves before it and this way up. -/
inductive Under : Tree → List Leaf → Leaf → List Crumb → Prop
  | leaf (l : Leaf) : Under (.leaf l) [] l []
  | branch {rule : String} {passed rest : List Tree} {c : Tree} {before : List Leaf} {l : Leaf}
      {below : List Crumb} (h : Under c before l below) :
      Under (.branch rule (passed ++ c :: rest)) (passed.flatMap Tree.leaves ++ before) l
        (below ++ [⟨rule, passed.reverse, rest⟩])

namespace Under

variable {t : Tree} {before after : List Leaf} {l : Leaf} {below path : List Crumb}

mutual

/-- Every leaf of a tree is under it. -/
theorem exists_of_leaves : (t : Tree) → ∀ (before after : List Leaf) (l : Leaf),
    t.leaves = before ++ l :: after → ∃ below, Under t before l below
  | .leaf l' => by
    intro before after l h
    rw [Tree.leaves_leaf, eq_comm, List.append_eq_singleton_iff] at h
    rcases h with ⟨rfl, h⟩ | ⟨-, h⟩
    · obtain ⟨rfl, -⟩ := List.cons.inj h
      exact ⟨[], .leaf l⟩
    · cases h
  | .branch rule children => by
    intro before after l h
    rw [Tree.leaves_branch] at h
    obtain ⟨passed, c, rest, inner, below, rfl, rfl, under⟩ :=
      exists_among children _ _ _ h
    exact ⟨_, .branch under⟩

theorem exists_among : (ts : List Tree) → ∀ (before after : List Leaf) (l : Leaf),
    ts.flatMap Tree.leaves = before ++ l :: after → ∃ passed c rest inner below,
      ts = passed ++ c :: rest ∧ before = passed.flatMap Tree.leaves ++ inner ∧
        Under c inner l below
  | [] => by
    intro before after l h
    simp at h
  | t :: ts => by
    intro before after l h
    rw [List.flatMap_cons] at h
    rcases append_eq_append_cons h with ⟨inner, here⟩ | ⟨inner, rfl, later⟩
    · obtain ⟨below, under⟩ := exists_of_leaves t _ _ _ here
      exact ⟨[], t, ts, before, below, rfl, by simp, under⟩
    · obtain ⟨passed, c, rest, inner, below, rfl, rfl, under⟩ := exists_among ts _ _ _ later
      exact ⟨t :: passed, c, rest, inner, below, rfl, by simp, under⟩

end

/-- Going up from the leaf leads to the tree. -/
theorem whole (h : Under t before l below) : Focus.whole ⟨.leaf l, below⟩ = t := by
  induction h with
  | leaf => rfl
  | branch _ ih =>
    rw [Focus.whole_append, ih]
    simp [Focus.whole, Crumb.fill]

theorem leaves (h : Under t before l below) : ∃ after, t.leaves = before ++ l :: after := by
  induction h with
  | leaf => exact ⟨[], by simp⟩
  | @branch rule passed rest c before l below _ ih =>
    obtain ⟨after, h⟩ := ih
    exact ⟨after ++ rest.flatMap Tree.leaves, by simp [h]⟩

/-- The leaf and its way up are among the leaves of the place. -/
theorem mem_leavesIn (h : Under t before l below) (path : List Crumb) :
    (⟨.leaf l, below ++ path⟩ : Focus) ∈ Focus.leavesIn path t := by
  induction h generalizing path with
  | leaf l => simp [Focus.leavesIn]
  | @branch rule passed rest c before l below _ ih =>
    obtain ⟨front, back, split, -⟩ := Focus.leavesAmong_split rule path [] passed c rest
    rw [List.append_nil] at split
    rw [Focus.leavesIn, split, List.append_assoc]
    exact List.mem_append_right _ (List.mem_append_left _ (ih _))

end Under

namespace Focus

variable {f : Focus}

/-- What is in a regular tree is regular. -/
theorem regular {g : Grammar} {T : List Token} {rules : List String}
    (h : f.whole.Regular g T rules) : f.tree.Regular g T rules := by
  obtain ⟨t, path⟩ := f
  induction path generalizing t with
  | nil => exact h
  | cons crumb path ih =>
    have above : (crumb.fill t).Regular g T rules := ih (crumb.fill t) h
    cases above with
    | branch _ children => exact children t (by simp)

/-- The leaves of a place in a tree are leaves of the tree, with their ways up. -/
theorem leavesIn_subset (t : Tree) (path : List Crumb) :
    leavesIn path t ⊆ (root (whole ⟨t, path⟩)).leaves := by
  induction path generalizing t with
  | nil => exact List.Subset.refl _
  | cons crumb path ih =>
    refine List.Subset.trans ?_ (ih (crumb.fill t))
    obtain ⟨rule, before, after⟩ := crumb
    obtain ⟨front, back, split, -⟩ := leavesAmong_split rule path [] before.reverse t after
    rw [List.reverse_reverse, List.append_nil] at split
    rw [Crumb.fill, leavesIn, split]
    exact List.Subset.trans (List.subset_append_left _ _) (List.subset_append_right _ _)

end Focus

/-! ## The name at a position -/

namespace Module

variable {m : Module} {source : Text} {pos : Position} {l : Leaf} {path : List Crumb}

/-- The name at a position is the one that covers it: no name before it reaches so far. -/
theorem nameAt?_leaf {rules : List String}
    (regular : m.root.Regular Grammar.pythonTables (tokenize source) rules)
    (ordered : m.root.leaves.Pairwise Leaf.Before)
    (member : (⟨.leaf l, path⟩ : Focus) ∈ (Focus.root m.root).leaves) (name : l.kind = .name)
    (after : l.start ≤ pos) (upTo : pos ≤ l.stop) : m.nameAt? pos = some ⟨.leaf l, path⟩ := by
  obtain ⟨earlier, later, split⟩ := List.append_of_mem member
  have trees : (Focus.root m.root).leaves.map (·.tree) = m.root.leaves.map .leaf :=
    Focus.leavesIn_trees [] m.root
  rw [split, List.map_append, List.map_cons] at trees
  obtain ⟨front, back, leaves, earlierTrees, laterTrees⟩ := List.map_eq_append_iff.1 trees.symm
  obtain ⟨l', back, rfl, same, -⟩ := List.map_eq_cons_iff.1 laterTrees
  cases same
  rw [nameAt?, List.find?_eq_some_iff_append]
  refine ⟨by simp [isNameAt, name, after, upTo], earlier, later, split, fun f hf => ?_⟩
  have tree : f.tree ∈ front.map Tree.leaf := by
    rw [earlierTrees]
    exact List.mem_map_of_mem hf
  obtain ⟨a, ha, leaf⟩ := List.mem_map.1 tree
  rw [leaves] at ordered
  have before : a.Before l := (List.pairwise_append.1 ordered).2.2 a ha l List.mem_cons_self
  cases other : isNameAt pos f with
  | false => rfl
  | true =>
    simp only [isNameAt, ← leaf, Bool.and_eq_true, beq_iff_eq, decide_eq_true_eq] at other
    obtain ⟨⟨kind, -⟩, reaches⟩ := other
    have own : a ∈ m.root.leaves := by rw [leaves]; exact List.mem_append_left _ ha
    have here : l ∈ m.root.leaves := by rw [leaves]; simp
    have apart := (regular.name own kind).apart (regular.name here name) before
    simp only [Position.lt_def, Position.le_def] at *
    omega

end Module

namespace Completion

open Caret.Import

variable {m : Module} {pos : Position} {l : Leaf} {t : Tree} {us : List Tree} {before : List Leaf}
  {below path : List Crumb} {crumb : Crumb} {rule : String}

/-! ## What a name is the end of -/

/-- Names and the dots of paths. -/
def inPath (l : Leaf) : Bool := l.kind = .name ∨ l.kind = .operator .dot

/-- The names and dots at the end of the leaves. -/
def pathBefore (before : List Leaf) : List Leaf := (before.reverse.takeWhile inPath).reverse

/-- Branches inside of imports. -/
def innerRules : List String :=
  ["dotted_name", "dotted_as_name", "import_as_name", "dotted_as_names", "import_as_names"]

/-- The name is bound by `as`, or it ends the path that is made of it and the names before it. -/
def EndsPath (f : Focus) (l : Leaf) (before : List Leaf) : Prop :=
  (isAlias f = true ∧ ∃ front as, before = front ++ [as] ∧ as.IsWord .kwAs) ∨
    (isAlias f = false ∧ pathUpTo f l = namesIn before ++ [.ofLeaf l] ∧
      ∀ x ∈ before, inPath x = true)

theorem under_branch (h : Under (.branch rule us) before l below) :
    ∃ passed c rest inner above, us = passed ++ c :: rest ∧
      before = passed.flatMap Tree.leaves ++ inner ∧
      below = above ++ [⟨rule, passed.reverse, rest⟩] ∧ Under c inner l above := by
  cases h with
  | branch h => exact ⟨_, _, _, _, _, rfl, rfl, rfl, h⟩

theorem under_leaf {l' : Leaf} (h : Under (.leaf l') before l below) :
    l' = l ∧ before = [] ∧ below = [] := by
  cases h
  exact ⟨rfl, rfl, rfl⟩

/-- A front part of a dotted name that ends with a name is a dotted name. -/
theorem names_upTo {first : Leaf} {rest : List (Leaf × Leaf)} {passed behind : List Tree}
    (h : Dotted first rest) (split : names first rest = passed ++ .leaf l :: behind)
    (name : l.kind = .name) : ∃ rest', passed ++ [.leaf l] = names first rest' ∧
      Dotted first rest' := by
  induction rest generalizing first passed with
  | nil =>
    cases passed with
    | nil =>
      obtain ⟨same, -⟩ := List.cons.inj split
      cases same
      exact ⟨[], rfl, h⟩
    | cons c passed =>
      have long := congrArg List.length split
      simp [names] at long
  | cons p rest ih =>
    obtain ⟨dot, second⟩ := p
    obtain ⟨isDot, isName⟩ : dot.IsOperator .dot ∧ second.kind = .name :=
      h.2 _ List.mem_cons_self
    rw [names_cons] at split
    cases passed with
    | nil =>
      obtain ⟨same, -⟩ := List.cons.inj split
      cases same
      exact ⟨[], rfl, h.1, by simp⟩
    | cons c passed =>
      obtain ⟨rfl, tail⟩ := List.cons.inj split
      cases passed with
      | nil =>
        obtain ⟨same, -⟩ := List.cons.inj tail
        cases same
        rw [isDot.1] at name
        cases name
      | cons d passed =>
        obtain ⟨rfl, more⟩ := List.cons.inj tail
        obtain ⟨rest', front, dotted⟩ :=
          ih ⟨isName, fun p hp => h.2 p (List.mem_cons_of_mem _ hp)⟩ more
        refine ⟨(dot, second) :: rest', by rw [names_cons, ← front]; rfl, h.1, fun p hp => ?_⟩
        rcases List.mem_cons.1 hp with rfl | hp
        · exact ⟨isDot, isName⟩
        · exact dotted.2 p hp

/-- A name in a path ends the path up to it. -/
theorem path_place (crumb : Crumb) (path : List Crumb) (h : Path t)
    (under : Under t before l below) (name : l.kind = .name)
    (other : crumb.rule ≠ "dotted_name")
    (first : crumb.before = [] ∨ crumb.rule ≠ "dotted_as_name" ∧ crumb.rule ≠ "import_as_name") :
    EndsPath ⟨.leaf l, below ++ crumb :: path⟩ l before ∧
      ∀ c ∈ below, c.rule ∈ innerRules := by
  have members := path_leaves h
  cases h with
  | single kind =>
    obtain ⟨rfl, rfl, rfl⟩ := under_leaf under
    refine ⟨.inr ⟨?_, ?_, by simp⟩, by simp⟩
    · rcases first with first | ⟨one, two⟩
      · simp [isAlias, Focus.index, first]
      · simp [isAlias, Focus.parentTitle?, one, two]
    · simp [pathUpTo, other, namesIn]
  | @several start rest dotted =>
    obtain ⟨passed, c, behind, inner, above, split, rfl, rfl, place⟩ := under_branch under
    obtain ⟨l', rfl⟩ : ∃ l', c = .leaf l' := by
      have mem : c ∈ names start rest := by rw [split]; simp
      rcases List.mem_cons.1 mem with rfl | mem
      · exact ⟨_, rfl⟩
      · obtain ⟨p, -, mem⟩ := List.mem_flatMap.1 mem
        simp only [List.mem_cons, List.not_mem_nil, or_false] at mem
        rcases mem with rfl | rfl <;> exact ⟨_, rfl⟩
    obtain ⟨rfl, rfl, rfl⟩ := under_leaf place
    obtain ⟨rest', front, dotted'⟩ := names_upTo dotted split name
    refine ⟨.inr ⟨by simp [isAlias, Focus.parentTitle?], ?_, fun x hx => ?_⟩,
      by simp [innerRules]⟩
    · have path : pathUpTo
          ⟨.leaf l', [⟨"dotted_name", passed.reverse, behind⟩] ++ crumb :: path⟩ l' =
          pathNames (passed ++ [.leaf l']) := by
        simp [pathUpTo]
      have all := pathNames_eq (.names dotted')
      rw [← front, List.flatMap_append, namesIn_append] at all
      rw [List.nil_append, path, all, List.append_nil]
      simp [namesIn, name]
    · rw [List.append_nil] at hx
      have own : x ∈ (names start rest).flatMap Tree.leaves := by
        rw [split, List.flatMap_append]
        exact List.mem_append_left _ hx
      rw [Tree.leaves_branch] at members
      rcases members x own with kind | dot
      · simp [inPath, kind]
      · simp [inPath, dot.1]

/-- The branches of single bindings. -/
def BindingRule (rule : String) : Prop := rule = "dotted_as_name" ∨ rule = "import_as_name"

/-- A name in what is bound is behind `as`, or ends the path up to it. -/
theorem bound_place (crumb : Crumb) (path : List Crumb) (h : Bound rule Path t)
    (binding : BindingRule rule)
    (under : Under t before l below) (name : l.kind = .name)
    (other : crumb.rule ∉ ["dotted_name", "dotted_as_name", "import_as_name"]) :
    EndsPath ⟨.leaf l, below ++ crumb :: path⟩ l before ∧ ∀ c ∈ below, c.rule ∈ innerRules := by
  simp only [List.mem_cons, List.not_mem_nil, or_false, not_or] at other
  cases h with
  | plain h => exact path_place crumb path h under name other.1 (.inr other.2)
  | @renamed t as n h word kind =>
    have ruleInner : rule ∈ innerRules := by
      rcases binding with rfl | rfl <;> simp [innerRules]
    obtain ⟨passed, c, rest, inner, above, split, rfl, rfl, place⟩ := under_branch under
    rcases passed with _ | ⟨p, _ | ⟨p', _ | ⟨p'', passed⟩⟩⟩ <;>
      simp only [List.nil_append, List.cons_append, List.cons.injEq, reduceCtorEq, and_false,
        List.nil_eq, List.append_eq_nil_iff] at split
    · -- in the path that is bound
      obtain ⟨rfl, rfl⟩ := split
      have ruleOther : rule ≠ "dotted_name" := by rcases binding with rfl | rfl <;> decide
      obtain ⟨ends, inside⟩ := path_place ⟨rule, [], [.leaf as, .leaf n]⟩ (crumb :: path) h place
        name ruleOther (.inl rfl)
      refine ⟨by simpa using ends, fun c hc => ?_⟩
      rcases List.mem_append.1 hc with hc | hc
      · exact inside c hc
      · rwa [List.mem_singleton.1 hc]
    · -- `as`
      obtain ⟨rfl, rfl, rfl⟩ := split
      obtain ⟨rfl, -, -⟩ := under_leaf place
      rw [word.1] at name
      cases name
    · -- the other name
      obtain ⟨rfl, rfl, rfl, rfl⟩ := split
      obtain ⟨rfl, rfl, rfl⟩ := under_leaf place
      refine ⟨.inl ⟨?_, t.leaves, as, by simp, word⟩, by simpa using ruleInner⟩
      rcases binding with rfl | rfl <;> simp [isAlias, Focus.parentTitle?, Focus.index]

/-- Items come first or behind commas. -/
theorem listed_split {Item : Tree → Prop} {last : Bool} {passed rest : List Tree} {c : Tree}
    (h : Listed Item last us) (split : us = passed ++ c :: rest) :
    (∃ comma, c = .leaf comma ∧ comma.IsOperator .comma) ∨
      Item c ∧ (passed = [] ∨ ∃ front comma, passed = front ++ [.leaf comma] ∧
        comma.IsOperator .comma) := by
  induction h generalizing rest with
  | nil => simp at split
  | @item us t listed item ih =>
    rcases List.eq_nil_or_concat rest with rfl | ⟨rest, t', rfl⟩
    · obtain ⟨rfl, same⟩ := List.append_inj' split rfl
      cases same
      refine .inr ⟨item, ?_⟩
      generalize flag : false = b at listed
      cases listed with
      | nil => exact .inl rfl
      | item => cases flag
      | comma _ hc => exact .inr ⟨_, _, rfl, hc⟩
    · rw [List.concat_eq_append, ← List.cons_append, ← List.append_assoc] at split
      exact ih (List.append_inj' split rfl).1
  | @comma us comma listed hc ih =>
    rcases List.eq_nil_or_concat rest with rfl | ⟨rest, t', rfl⟩
    · obtain ⟨-, same⟩ := List.append_inj' split rfl
      cases same
      exact .inl ⟨comma, rfl, hc⟩
    · rw [List.concat_eq_append, ← List.cons_append, ← List.append_assoc] at split
      exact ih (List.append_inj' split rfl).1

/-- A name in a list is behind `as`, or ends a path, and that starts the list or follows a comma. -/
theorem series_place {list : String} (crumb : Crumb) (path : List Crumb)
    (h : Series list (Bound rule Path) t) (binding : BindingRule rule)
    (lists : list = "dotted_as_names" ∨ list = "import_as_names")
    (under : Under t before l below) (name : l.kind = .name)
    (other : crumb.rule ∉ ["dotted_name", "dotted_as_name", "import_as_name"]) :
    ∃ front inner, before = front ++ inner ∧
      (∀ x ∈ front.getLast?, x.IsOperator .comma) ∧
      EndsPath ⟨.leaf l, below ++ crumb :: path⟩ l inner ∧ ∀ c ∈ below, c.rule ∈ innerRules := by
  cases h with
  | single bound =>
    exact ⟨[], before, rfl, by simp, bound_place crumb path bound binding under name other⟩
  | several listed =>
    obtain ⟨passed, c, rest, inner, above, split, rfl, rfl, place⟩ := under_branch under
    rcases listed_split listed split with ⟨comma, rfl, hc⟩ | ⟨bound, boundary⟩
    · obtain ⟨rfl, -, -⟩ := under_leaf place
      rw [hc.1] at name
      cases name
    · have listOther : list ∉ ["dotted_name", "dotted_as_name", "import_as_name"] := by
        rcases lists with rfl | rfl <;> decide
      have listInner : list ∈ innerRules := by
        rcases lists with rfl | rfl <;> simp [innerRules]
      obtain ⟨ends, inside⟩ := bound_place ⟨list, passed.reverse, rest⟩ (crumb :: path) bound
        binding place name listOther
      refine ⟨_, inner, rfl, ?_, by simpa using ends, fun c hc => ?_⟩
      · rcases boundary with rfl | ⟨front, comma, rfl, hc⟩
        · simp
        · simpa using hc
      · rcases List.mem_append.1 hc with hc | hc
        · exact inside c hc
        · rwa [List.mem_singleton.1 hc]

theorem listed_mono {Item Item' : Tree → Prop} {last : Bool} (h : Listed Item last us)
    (weaker : ∀ t, Item t → Item' t) : Listed Item' last us := by
  induction h with
  | nil => exact .nil
  | item _ item ih => exact .item ih (weaker _ item)
  | comma _ hc ih => exact .comma ih hc

/-- A name is a path. -/
theorem imports_paths (h : Imports t) :
    Series "import_as_names" (Bound "import_as_name" Path) t := by
  have weaker (t : Tree) (h : Bound "import_as_name" Name t) : Bound "import_as_name" Path t := by
    cases h with
    | plain name =>
      obtain ⟨l, rfl, kind⟩ := name
      exact .plain (.single kind)
    | renamed name word other =>
      obtain ⟨l, rfl, kind⟩ := name
      exact .renamed (.single kind) word other
  cases h with
  | single bound => exact .single (weaker t bound)
  | several listed => exact .several (listed_mono listed weaker)

/-! ## The import around a name -/

/-- Going up inside of an import. -/
theorem importAround?_below (inside : ∀ c ∈ below, c.rule ∈ innerRules) :
    importAround? t (below ++ path) = importAround? (Focus.whole ⟨t, below⟩) path := by
  induction below generalizing t with
  | nil => rfl
  | cons crumb below ih =>
    have inner := inside crumb List.mem_cons_self
    have next := ih (t := crumb.fill t) fun c hc => inside c (List.mem_cons_of_mem _ hc)
    rw [List.cons_append, importAround?, Focus.whole_cons, ← next]
    simp only [innerRules, List.mem_cons, List.not_mem_nil, or_false] at inner
    rcases inner with h | h | h | h | h <;> simp [h, importRules]

theorem importAround?_under (crumb : Crumb) (path : List Crumb) (under : Under t before l below)
    (inside : ∀ c ∈ below, c.rule ∈ innerRules) (named : crumb.rule ∈ importRules) :
    importAround? (.leaf l) (below ++ crumb :: path) = some ⟨crumb.fill t, path⟩ := by
  rw [importAround?_below inside, under.whole, importAround?,
    if_pos (List.contains_iff_mem.2 named)]

theorem importAround?_whole {s : Focus} (h : importAround? t path = some s) :
    s.whole = Focus.whole ⟨t, path⟩ := by
  induction path generalizing t with
  | nil => cases h
  | cons crumb path ih =>
    rw [importAround?] at h
    split at h
    · cases h
      rfl
    split at h
    · cases h
    · exact ih h

/-- The target, by what is around the name. -/
theorem importTarget?_eq {f statement : Focus} (found : m.nameAt? pos = some f)
    (leaf : f.tree = .leaf l) (around : importAround? f.tree f.path = some statement) :
    importTarget? m pos =
      if isAlias f then none
      else if statement.tree.title = "import_name" then some ⟨.ofLeaf l, pathUpTo f l, 0⟩
      else
        let children := statement.tree.children
        let path := modulePath ((children.drop 1).takeWhile (!isImportKeyword ·))
        let inModulePath := match children.find? isImportKeyword with
          | some keyword => decide (l.start < keyword.start)
          | none => true
        some ⟨.ofLeaf l, if inModulePath then pathUpTo f l else path.2 ++ [.ofLeaf l], path.1⟩ := by
  rw [leaf] at around
  unfold importTarget?
  simp only [found, Option.bind_eq_bind, Option.bind_some, around, leaf, Tree.leaf?, beq_iff_eq]
  rfl

/-! ## Aliases and boundaries -/

/-- The last of the leaves is `as`. -/
def AsBefore (before : List Leaf) : Prop := ∃ as ∈ before.getLast?, as.IsWord .kwAs

theorem not_word_of_inPath {x : Leaf} (h : inPath x = true) (k : Keyword) : ¬ x.IsWord k := by
  rintro ⟨kind, -⟩
  simp [inPath, kind] at h

/-- The names and dots at the end, behind a leaf that is neither. -/
theorem pathBefore_append {front inner : List Leaf}
    (boundary : ∀ x ∈ front.getLast?, inPath x = false) (h : ∀ x ∈ inner, inPath x = true) :
    pathBefore (front ++ inner) = inner := by
  have stops : front.reverse.takeWhile inPath = [] := by
    cases hr : front.reverse with
    | nil => rfl
    | cons x rest =>
      have last : x ∈ front.getLast? := by rw [← List.head?_reverse, hr]; rfl
      rw [List.takeWhile_cons, boundary x last]
      rfl
  rw [pathBefore, List.reverse_append,
    List.takeWhile_append_of_pos fun x hx => h x (List.mem_reverse.1 hx), stops, List.append_nil,
    List.reverse_reverse]

/-- Behind a boundary the name is bound by `as` if and only if `as` is right before it. -/
theorem endsPath_cases {f : Focus} {front inner : List Leaf} (h : EndsPath f l inner)
    (boundary : ∀ x ∈ front.getLast?, inPath x = false ∧ ¬ x.IsWord .kwAs) :
    (AsBefore (front ++ inner) ∧ isAlias f = true) ∨
      (¬ AsBefore (front ++ inner) ∧ isAlias f = false ∧
        pathUpTo f l = namesIn (pathBefore (front ++ inner)) ++ [.ofLeaf l]) := by
  rcases h with ⟨alias', other, as, rfl, word⟩ | ⟨plain, path, inside⟩
  · exact .inl ⟨⟨as, by simp [← List.append_assoc], word⟩, alias'⟩
  · refine .inr ⟨?_, plain, ?_⟩
    · rintro ⟨as, last, word⟩
      rcases List.eq_nil_or_concat inner with rfl | ⟨rest, x, rfl⟩
      · rw [List.append_nil] at last
        exact (boundary as last).2 word
      · rw [List.concat_eq_append, ← List.append_assoc, List.getLast?_concat] at last
        cases last
        exact not_word_of_inPath (inside as (by simp)) _ word
    · rw [path, pathBefore_append (fun x hx => (boundary x hx).1) inside]

/-! ## `import` statements -/

/-- The target that stands for a name of an `import` statement: the names right before it make the
path. -/
def importedPath (before : List Leaf) (l : Leaf) : ImportTarget :=
  ⟨.ofLeaf l, namesIn (pathBefore before) ++ [.ofLeaf l], 0⟩

theorem target_of_import {s : Focus} {word : Leaf} {after : List Leaf}
    (tree : s.tree = .branch "import_name" [.leaf word, t]) (isWord : word.IsWord .kwImport)
    (paths : Paths t) (split : s.tree.leaves = before ++ l :: after) (name : l.kind = .name) :
    ∃ f ∈ Focus.leavesIn s.path s.tree, f.tree = .leaf l ∧
      ∀ m pos, m.nameAt? pos = some f →
        (AsBefore before → importTarget? m pos = none) ∧
        (¬ AsBefore before → importTarget? m pos = some (importedPath before l)) := by
  obtain ⟨below, place⟩ := Under.exists_of_leaves s.tree _ _ _ split
  refine ⟨_, place.mem_leavesIn s.path, rfl, fun m pos found => ?_⟩
  rw [tree] at place
  obtain ⟨passed, c, rest, inner, above, parts, rfl, rfl, under⟩ := under_branch place
  rcases passed with _ | ⟨p, _ | ⟨p', passed⟩⟩ <;>
    simp only [List.nil_append, List.cons_append, List.cons.injEq, and_false, List.nil_eq,
      List.append_eq_nil_iff, reduceCtorEq] at parts
  · obtain ⟨rfl, -⟩ := parts
    obtain ⟨rfl, -, -⟩ := under_leaf under
    rw [isWord.1] at name
    cases name
  · obtain ⟨rfl, rfl, rfl⟩ := parts
    obtain ⟨front, inner, rfl, commas, ends, inside⟩ :=
      series_place ⟨"import_name", [.leaf word], []⟩ s.path paths (.inl rfl) (.inl rfl) under name
        (by simp)
    have here : m.nameAt? pos =
        some ⟨.leaf l, above ++ ⟨"import_name", [.leaf word], []⟩ :: s.path⟩ := by
      rw [found, List.append_assoc]
      rfl
    have around := importAround?_under ⟨"import_name", [.leaf word], []⟩ s.path under inside
      (by simp [importRules])
    have target := importTarget?_eq here rfl around
    have boundary : ∀ x ∈ (word :: front).getLast?, inPath x = false ∧ ¬ x.IsWord .kwAs := by
      intro x hx
      cases front with
      | nil =>
        cases hx
        refine ⟨by simp [inPath, isWord.1], fun word' => ?_⟩
        have same := isWord.2.symm.trans word'.2
        exact absurd same (by decide)
      | cons y front =>
        rw [List.getLast?_cons_cons] at hx
        have comma := commas x hx
        exact ⟨by simp [inPath, comma.1], fun word' => by
          have same := comma.1.symm.trans word'.1
          cases same⟩
    have leaves : [Tree.leaf word].flatMap Tree.leaves ++ (front ++ inner) =
        (word :: front) ++ inner := by simp
    rw [leaves]
    rcases endsPath_cases ends boundary with ⟨as, alias'⟩ | ⟨as, plain, path⟩
    · exact ⟨fun _ => by rw [target, if_pos alias'], fun not => absurd as not⟩
    · refine ⟨fun is => absurd is as, fun _ => ?_⟩
      rw [target, plain, if_neg Bool.false_ne_true, path]
      rfl

/-! ## `from` statements -/

instance (k : Keyword) (l : Leaf) : Decidable (l.IsWord k) := inferInstanceAs (Decidable (_ ∧ _))

instance (o : Operator) (l : Leaf) : Decidable (l.IsOperator o) :=
  inferInstanceAs (Decidable (_ ∧ _))

instance (l : Leaf) : Decidable l.IsDots := inferInstanceAs (Decidable (_ ∨ _))

/-- The leaves in front of the word `import`. -/
def inFront (ls : List Leaf) : List Leaf := ls.takeWhile fun l => ¬ l.IsWord .kwImport

/-- The target that stands for a name of a `from` statement with these leaves: the names before it
that are in front of the word `import` make the path, and the dots behind `from` are the level. -/
def fromPath (ls before : List Leaf) (l : Leaf) : ImportTarget :=
  ⟨.ofLeaf l, namesIn (inFront before) ++ [.ofLeaf l],
    (((ls.drop 1).takeWhile fun l => l.IsDots).flatMap (·.value)).count '.'⟩

theorem isImportKeyword_leaf : isImportKeyword (.leaf l) = decide (l.IsWord .kwImport) := by
  have title : l.kind.title = "keyword" ↔ l.kind = .keyword := by
    cases l.kind <;> simp [LeafKind.title]
  rw [Bool.eq_iff_iff, isImportKeyword, Bool.and_eq_true, beq_iff_eq, decide_eq_true_eq]
  simp only [Tree.title, title, Tree.spells, Tree.value, beq_iff_eq]
  rfl

variable {fr : Front} {word : Leaf} {source : Text}

theorem front_not_import (h : fr.Valid) : ∀ t ∈ fr.trees, isImportKeyword t = false := by
  intro t ht
  have leaves := front_leaves h
  cases t with
  | leaf l =>
    rw [isImportKeyword_leaf, decide_eq_false_iff_not]
    exact leaves l (List.mem_flatMap.2 ⟨_, ht, by simp⟩)
  | branch rule children =>
    rcases List.mem_cons.1 ht with same | ht
    · cases same
    rcases List.mem_append.1 ht with ht | ht
    · obtain ⟨d, -, same⟩ := List.mem_map.1 ht
      cases same
    · cases h.path _ (Option.mem_toList.1 ht)
      rfl

/-- The word `import` is the first of its kind in the statement. -/
theorem find?_import (h : fr.Valid) (hw : word.IsWord .kwImport) (rest : List Tree) :
    (fr.trees ++ .leaf word :: rest).find? isImportKeyword = some (.leaf word) := by
  have none : fr.trees.find? isImportKeyword = none :=
    List.find?_eq_none.2 fun t ht => by simp [front_not_import h t ht]
  rw [List.find?_append, none, Option.none_or, List.find?_cons_of_pos]
  rw [isImportKeyword_leaf, decide_eq_true hw]

/-- Dots and path are what stands between `from` and `import`. -/
theorem between_words (h : fr.Valid) (hw : word.IsWord .kwImport) (rest : List Tree) :
    ((fr.trees ++ .leaf word :: rest).drop 1).takeWhile (!isImportKeyword ·) =
      fr.dots.map .leaf ++ fr.path.toList := by
  have inner : ∀ t ∈ fr.dots.map Tree.leaf ++ fr.path.toList, (!isImportKeyword t) = true := by
    intro t ht
    rw [front_not_import h t (List.mem_cons_of_mem _ ht)]
    rfl
  have stop : (!isImportKeyword (.leaf word)) = false := by
    rw [isImportKeyword_leaf, decide_eq_true hw]
    rfl
  rw [Front.trees, List.cons_append, List.drop_one, List.tail_cons,
    List.takeWhile_append_of_pos inner, List.takeWhile_cons, stop]
  simp

theorem modulePath_concat (us : List Tree) (t : Tree) : modulePath (us ++ [t]) =
    if t.spells "." || t.spells "..." then ((modulePath us).1 + t.value.length, (modulePath us).2)
    else if t.title == "dotted_name" then ((modulePath us).1, pathNames t.children)
    else ((modulePath us).1, (modulePath us).2 ++ (t.leaf?.map PathName.ofLeaf).toList) := by
  simp only [modulePath, List.foldl_append, List.foldl_cons, List.foldl_nil]

/-- No name is spelled like dots. -/
theorem not_dots_of_name (h : l.IsNameIn (tokenize source)) :
    ((Tree.leaf l).spells "." || (Tree.leaf l).spells "...") = false := by
  obtain ⟨t, ht, name, value, -⟩ := h
  obtain ⟨us, ts, split⟩ := List.append_of_mem ht
  obtain ⟨⟨c, tail, spelled, start⟩, -⟩ := tokenize_name split name
  have other : c ≠ '.' := by
    rintro rfl
    exact absurd start (by decide)
  simp [Tree.spells, Tree.value, value, spelled, other]

/-- The dots and names in front of the word `import`. -/
theorem modulePath_front (h : fr.Valid)
    (named : ∀ t ∈ fr.path, ∀ l ∈ t.leaves, l.kind = .name → l.IsNameIn (tokenize source)) :
    modulePath (fr.dots.map .leaf ++ fr.path.toList) =
      ((fr.dots.flatMap (·.value)).length, namesIn (fr.path.toList.flatMap Tree.leaves)) := by
  have dots : ∀ ds : List Leaf, (∀ d ∈ ds, d.IsDots) →
      modulePath (ds.map .leaf) = ((ds.flatMap (·.value)).length, []) := by
    intro ds
    induction ds using List.reverseRecOn with
    | nil => exact fun _ => rfl
    | append_singleton ds d ih =>
      intro all
      have spelled : ((Tree.leaf d).spells "." || (Tree.leaf d).spells "...") = true := by
        rcases all d (by simp) with dot | dots
        · simp [Tree.spells, Tree.value, dot.2, Operator.spelling]
        · simp [Tree.spells, Tree.value, dots.2, Operator.spelling]
      rw [List.map_append, List.map_singleton, modulePath_concat, if_pos spelled,
        ih fun d hd => all d (by simp [hd]), List.flatMap_append, List.length_append,
        List.flatMap_singleton]
      rfl
  cases path : fr.path with
  | none => simpa [namesIn] using dots fr.dots h.dots
  | some t =>
    rw [Option.toList_some, modulePath_concat, dots fr.dots h.dots, List.flatMap_singleton]
    cases h.path t path with
    | @single l name =>
      have other := not_dots_of_name (named _ path l (by simp) name)
      rw [other, Tree.leaves_leaf]
      simp [Tree.title, name, LeafKind.title, Tree.leaf?, namesIn]
    | @several first rest dotted =>
      rw [Tree.leaves_branch, ← pathNames_eq (.names dotted)]
      rfl

/-- The leaves of the front: `from`, the dots, and those of the path. -/
theorem leaves_front (fr : Front) : fr.trees.flatMap Tree.leaves =
    fr.word :: (fr.dots ++ fr.path.toList.flatMap Tree.leaves) := by
  simp [Front.trees, List.flatMap_map]

/-- The level of the statement is the number of characters of its dots. -/
theorem level_eq (h : fr.Valid) (hw : word.IsWord .kwImport) (rest : List Tree) :
    (((((fr.trees ++ .leaf word :: rest).flatMap Tree.leaves).drop 1).takeWhile
      fun l => l.IsDots).flatMap (·.value)).count '.' = (fr.dots.flatMap (·.value)).length := by
  have inner : ∀ d ∈ fr.dots, decide d.IsDots = true := fun d hd => decide_eq_true (h.dots d hd)
  have other {l : Leaf} (kind : l.kind = .name ∨ l.kind = .keyword) : decide l.IsDots = false := by
    rw [decide_eq_false_iff_not]
    rintro (⟨dots, -⟩ | ⟨dots, -⟩) <;> rw [dots] at kind <;>
      rcases kind with kind | kind <;> cases kind
  have stop : ((fr.path.toList.flatMap Tree.leaves) ++
      (Tree.leaf word :: rest).flatMap Tree.leaves).takeWhile (fun l => l.IsDots) = [] := by
    cases path : fr.path with
    | none => simp [other (.inr hw.1)]
    | some t =>
      cases h.path t path with
      | single name => simp [other (.inl name)]
      | several dotted => simp [names, other (.inl dotted.1)]
  rw [List.flatMap_append, leaves_front, List.cons_append, List.drop_one, List.tail_cons,
    List.append_assoc, List.takeWhile_append_of_pos inner, stop, List.append_nil,
    List.count_eq_length]
  intro c hc
  obtain ⟨d, hd, hc⟩ := List.mem_flatMap.1 hc
  rcases h.dots d hd with ⟨-, value⟩ | ⟨-, value⟩ <;> rw [value] at hc <;>
    simpa [Operator.spelling, eq_comm] using hc

theorem namesIn_dots (h : fr.Valid) : namesIn (fr.word :: fr.dots) = [] := by
  rw [namesIn, List.filter_eq_nil_iff.2, List.map_nil]
  intro l hl name
  rw [decide_eq_true_eq] at name
  rcases List.mem_cons.1 hl with rfl | hl
  · rw [h.word.1] at name
    cases name
  · rcases h.dots l hl with ⟨dots, -⟩ | ⟨dots, -⟩ <;> (rw [name] at dots; cases dots)

/-- The names of the front are those of the path. -/
theorem namesIn_front (h : fr.Valid) : namesIn (fr.trees.flatMap Tree.leaves) =
    namesIn (fr.path.toList.flatMap Tree.leaves) := by
  rw [leaves_front, ← List.cons_append, namesIn_append, namesIn_dots h, List.nil_append]

theorem inFront_append {ls ms : List Leaf} (h : ∀ l ∈ ls, ¬ l.IsWord .kwImport) :
    inFront (ls ++ ms) = ls ++ inFront ms :=
  List.takeWhile_append_of_pos fun l hl => decide_eq_true (h l hl)

theorem inFront_cons (hw : word.IsWord .kwImport) (ms : List Leaf) :
    inFront (word :: ms) = [] :=
  List.takeWhile_cons_of_neg (by simp [hw])

/-- The target in a `from` statement, by where the name is. -/
theorem importTarget?_from {f : Focus} (found : m.nameAt? pos = some f) (leaf : f.tree = .leaf l)
    {rest : List Tree} (around : importAround? f.tree f.path =
      some ⟨.branch "import_from" (fr.trees ++ .leaf word :: rest), path⟩)
    (h : fr.Valid) (hw : word.IsWord .kwImport)
    (named : ∀ t ∈ fr.path, ∀ l ∈ t.leaves, l.kind = .name → l.IsNameIn (tokenize source)) :
    importTarget? m pos = if isAlias f then none else
      some ⟨.ofLeaf l, if l.start < word.start then pathUpTo f l else
        namesIn (fr.path.toList.flatMap Tree.leaves) ++ [.ofLeaf l],
        (((((fr.trees ++ .leaf word :: rest).flatMap Tree.leaves).drop 1).takeWhile
          fun l => l.IsDots).flatMap (·.value)).count '.'⟩ := by
  rw [importTarget?_eq found leaf around, level_eq h hw]
  simp only [Tree.title, Tree.children, between_words h hw, modulePath_front h named,
    find?_import h hw, Tree.start, Tree.firstLeaf?, Option.map_some, Option.getD_some,
    if_neg (show "import_from" ≠ "import_name" by decide)]
  by_cases first : l.start < word.start <;> simp only [first, decide_true, decide_false, if_true,
    if_false, Bool.false_eq_true]

/-- The name is bound by `as`, or the target has the path of the statement up to the name. -/
def EndsFromPath (fr : Front) (word : Leaf) (f : Focus) (l : Leaf) (before : List Leaf) : Prop :=
  (AsBefore before ∧ isAlias f = true) ∨
    (¬ AsBefore before ∧ isAlias f = false ∧
      (if l.start < word.start then pathUpTo f l else
        namesIn (fr.path.toList.flatMap Tree.leaves) ++ [.ofLeaf l]) =
          namesIn (inFront before) ++ [.ofLeaf l])

/-- A name in the front of the statement is in its path. -/
theorem front_split {passed rest : List Tree} (h : fr.Valid)
    (split : fr.trees = passed ++ t :: rest) (under : Under t before l below)
    (name : l.kind = .name) :
    fr.path = some t ∧ passed = .leaf fr.word :: fr.dots.map .leaf ∧ rest = [] := by
  cases passed with
  | nil =>
    obtain ⟨rfl, -⟩ := List.cons.inj split
    obtain ⟨rfl, -, -⟩ := under_leaf under
    rw [h.word.1] at name
    cases name
  | cons p passed =>
    obtain ⟨rfl, behind⟩ := List.cons.inj split
    rcases List.append_eq_append_iff.1 behind with ⟨more, rfl, path⟩ | ⟨more, dots, path⟩
    · cases more with
      | nil =>
        cases found : fr.path with
        | none => simp [found] at path
        | some t' =>
          obtain ⟨rfl, rfl⟩ : t' = t ∧ [] = rest := by simpa [found] using path
          simp
      | cons p' more =>
        cases found : fr.path <;> simp [found] at path
    · cases more with
      | nil =>
        cases found : fr.path with
        | none => simp [found] at path
        | some t' =>
          obtain ⟨rfl, rfl⟩ : t = t' ∧ rest = [] := by simpa [found] using path
          simpa using dots.symm
      | cons d more =>
        obtain ⟨rfl, -⟩ := List.cons.inj path
        obtain ⟨d, hd, rfl⟩ := List.mem_map.1 (dots ▸ List.mem_append_right _ List.mem_cons_self)
        obtain ⟨rfl, -, -⟩ := under_leaf under
        rcases h.dots _ hd with ⟨dots, -⟩ | ⟨dots, -⟩ <;> (rw [name] at dots; cases dots)

/-- A name behind the word `import` is among the imports, which may stand in parentheses. -/
theorem behind_split {passed rest : List Tree} (h : Behind 6 us) (split : us = passed ++ t :: rest)
    (under : Under t before l below) (name : l.kind = .name) :
    Imports t ∧ ∃ opening : List Leaf, passed = opening.map .leaf ∧
      ∀ o ∈ opening, o.IsOperator .lPar := by
  have sign {x : Leaf} {o : Operator} (own : x.IsOperator o) : t ≠ .leaf x := by
    rintro rfl
    obtain ⟨rfl, -, -⟩ := under_leaf under
    rw [own.1] at name
    cases name
  generalize state : 6 = s at h
  cases h with
  | nothing | opened | inside => cases state
  | star own =>
    rcases passed with _ | ⟨p, passed⟩ <;> simp at split
    exact absurd split.1.symm (sign own)
  | names imports =>
    rcases passed with _ | ⟨p, passed⟩ <;> simp at split
    obtain ⟨rfl, -⟩ := split
    exact ⟨imports, [], rfl, by simp⟩
  | @closed o c t' ho imports hc =>
    rcases passed with _ | ⟨p, _ | ⟨p', _ | ⟨p'', passed⟩⟩⟩ <;>
      simp only [List.nil_append, List.cons_append, List.cons.injEq, reduceCtorEq, and_false,
        List.nil_eq, List.append_eq_nil_iff] at split
    · exact absurd split.1.symm (sign ho)
    · obtain ⟨rfl, rfl, -⟩ := split
      exact ⟨imports, [o], rfl, by simpa using ho⟩
    · exact absurd split.2.2.1.symm (sign hc)

/-- A name of the module path. -/
theorem front_place (word : Leaf) (rest : List Tree) (path : List Crumb) (h : fr.Valid)
    (some : fr.path = some t) (under : Under t before l below) (name : l.kind = .name)
    (first : l.start < word.start) :
    EndsFromPath fr word
      ⟨.leaf l, below ++
        ⟨"import_from", (.leaf fr.word :: fr.dots.map .leaf).reverse, rest⟩ :: path⟩
      l (fr.word :: fr.dots ++ before) ∧ ∀ c ∈ below, c.rule ∈ innerRules := by
  obtain ⟨ends, inside⟩ := path_place
    ⟨"import_from", (.leaf fr.word :: fr.dots.map .leaf).reverse, rest⟩ path (h.path t some) under
    name (by simp) (.inr (by simp))
  refine ⟨?_, inside⟩
  rcases ends with ⟨alias', front, as, rfl, word'⟩ | ⟨plain, upTo, inPaths⟩
  · exact .inl ⟨⟨as, by rw [← List.append_assoc, List.getLast?_concat]; rfl, word'⟩, alias'⟩
  · have own : ∀ x ∈ fr.word :: fr.dots, ∀ k : Keyword,
        k.spelling.toList ≠ Keyword.kwFrom.spelling.toList → ¬ x.IsWord k := by
      rintro x hx k other ⟨kind, value⟩
      rcases List.mem_cons.1 hx with rfl | hx
      · exact other (value.symm.trans h.word.2)
      · rcases h.dots x hx with ⟨dots, -⟩ | ⟨dots, -⟩ <;> (rw [kind] at dots; cases dots)
    refine .inr ⟨?_, plain, ?_⟩
    · rintro ⟨as, last, word'⟩
      rcases List.mem_append.1 (List.mem_of_getLast? last) with mem | mem
      · exact own as mem _ (by decide) word'
      · exact not_word_of_inPath (inPaths as mem) _ word'
    · have all : ∀ x ∈ fr.word :: fr.dots ++ before, ¬ x.IsWord .kwImport := by
        intro x hx word'
        rcases List.mem_append.1 hx with mem | mem
        · exact own x mem _ (by decide) word'
        · exact not_word_of_inPath (inPaths x mem) _ word'
      have front : inFront (fr.word :: fr.dots ++ before) = fr.word :: fr.dots ++ before :=
        List.takeWhile_eq_self_iff.2 fun x hx => decide_eq_true (all x hx)
      rw [if_pos first, upTo, front, namesIn_append, namesIn_dots h, List.nil_append]

/-- An imported name. -/
theorem behind_place {opening : List Leaf} (rest : List Tree) (path : List Crumb) (h : fr.Valid)
    (hw : word.IsWord .kwImport) (opened : ∀ o ∈ opening, o.IsOperator .lPar) (imports : Imports t)
    (under : Under t before l below) (name : l.kind = .name) (behind : ¬ l.start < word.start) :
    EndsFromPath fr word
      ⟨.leaf l, below ++ ⟨"import_from",
        (fr.trees ++ .leaf word :: opening.map Tree.leaf).reverse, rest⟩ :: path⟩
      l (fr.trees.flatMap Tree.leaves ++ word :: (opening ++ before)) ∧
      ∀ c ∈ below, c.rule ∈ innerRules := by
  obtain ⟨front, inner, rfl, commas, ends, inside⟩ := series_place
    ⟨"import_from", (fr.trees ++ .leaf word :: opening.map Tree.leaf).reverse, rest⟩ path
    (imports_paths imports) (.inr rfl) (.inr rfl) under name (by simp)
  refine ⟨?_, inside⟩
  have boundary : ∀ x ∈ (fr.trees.flatMap Tree.leaves ++ word :: (opening ++ front)).getLast?,
      inPath x = false ∧ ¬ x.IsWord .kwAs := by
    have sign {x : Leaf} {o : Operator} (own : x.IsOperator o) (other : o ≠ .dot) :
        inPath x = false ∧ ¬ x.IsWord .kwAs :=
      ⟨by simp [inPath, own.1, other], fun word' => by
        have same := own.1.symm.trans word'.1
        cases same⟩
    intro x hx
    rw [List.getLast?_append_of_ne_nil _ (List.cons_ne_nil _ _)] at hx
    rcases List.eq_nil_or_concat front with rfl | ⟨ls, comma, rfl⟩
    · rw [List.append_nil] at hx
      rcases List.mem_cons.1 (List.mem_of_getLast? hx) with rfl | mem
      · refine ⟨by simp [inPath, hw.1], fun word' => ?_⟩
        have same := hw.2.symm.trans word'.2
        exact absurd same (by decide)
      · exact sign (opened x mem) (by decide)
    · rw [List.concat_eq_append, ← List.append_assoc, ← List.cons_append,
        List.getLast?_concat] at hx
      cases hx
      exact sign (commas x (by simp)) (by decide)
  have leaves : fr.trees.flatMap Tree.leaves ++ word :: (opening ++ (front ++ inner)) =
      (fr.trees.flatMap Tree.leaves ++ word :: (opening ++ front)) ++ inner := by simp
  have stops : inFront (fr.trees.flatMap Tree.leaves ++ word :: (opening ++ (front ++ inner))) =
      fr.trees.flatMap Tree.leaves := by
    rw [inFront_append (front_leaves h), inFront_cons hw, List.append_nil]
  rw [EndsFromPath, if_neg behind, stops, namesIn_front h, leaves]
  exact (endsPath_cases ends boundary).imp_right fun ⟨as, plain, _⟩ => ⟨as, plain, rfl⟩

/-- A name of the statement is in its path or among its imports. -/
theorem from_place {back passed rest : List Tree} (path : List Crumb) (h : fr.Valid)
    (hw : word.IsWord .kwImport) (more : Behind 6 back)
    (children : fr.trees ++ .leaf word :: back = passed ++ t :: rest)
    (ordered : ((fr.trees ++ .leaf word :: back).flatMap Tree.leaves).Pairwise Leaf.Before)
    (under : Under t before l below) (name : l.kind = .name) (wide : l.start < l.stop) :
    EndsFromPath fr word ⟨.leaf l, below ++ ⟨"import_from", passed.reverse, rest⟩ :: path⟩ l
      (passed.flatMap Tree.leaves ++ before) ∧ ∀ c ∈ below, c.rule ∈ innerRules := by
  rw [List.flatMap_append, List.flatMap_cons, Tree.leaves_leaf, List.singleton_append] at ordered
  obtain ⟨-, behind, across⟩ := List.pairwise_append.1 ordered
  obtain ⟨after, leaves⟩ := under.leaves
  have own : l ∈ t.leaves := by rw [leaves]; simp
  have notWord : t ≠ .leaf word := by
    rintro rfl
    obtain ⟨rfl, -, -⟩ := under_leaf under
    rw [hw.1] at name
    cases name
  rcases List.append_eq_append_iff.1 children with
    ⟨_ | ⟨w, more'⟩, rfl, divided⟩ | ⟨_ | ⟨w, more'⟩, front, divided⟩ <;>
    obtain ⟨rfl, tail⟩ := List.cons.inj divided
  · exact absurd rfl notWord
  · obtain ⟨imports, opening, rfl, opened⟩ := behind_split more tail under name
    have later : word.stop ≤ l.start :=
      (List.pairwise_cons.1 behind).1 l (by rw [tail]; simp [own])
    have notFirst : ¬ l.start < word.start := by
      have start := word.start_le_stop
      simp only [Position.lt_def, Position.le_def] at *
      omega
    have place := behind_place rest path h hw opened imports under name notFirst
    simpa [List.flatMap_map] using place
  · exact absurd rfl notWord
  · have earlier : l.stop ≤ word.start :=
      across l (by rw [front]; simp [own]) word List.mem_cons_self
    have first : l.start < word.start := by
      simp only [Position.lt_def, Position.le_def] at *
      omega
    obtain ⟨some, rfl, -⟩ := front_split h front under name
    have place := front_place word rest path h some under name first
    simpa [List.flatMap_map] using place

theorem target_of_from {s : Focus} {back : List Tree} {after : List Leaf}
    (tree : s.tree = .branch "import_from" (fr.trees ++ .leaf word :: back)) (h : fr.Valid)
    (hw : word.IsWord .kwImport) (more : Behind 6 back)
    (named : ∀ l ∈ s.tree.leaves, l.kind = .name → l.IsNameIn (tokenize source))
    (ordered : s.tree.leaves.Pairwise Leaf.Before)
    (split : s.tree.leaves = before ++ l :: after) (name : l.kind = .name) :
    ∃ f ∈ Focus.leavesIn s.path s.tree, f.tree = .leaf l ∧
      ∀ m pos, m.nameAt? pos = some f →
        (AsBefore before → importTarget? m pos = none) ∧
        (¬ AsBefore before →
          importTarget? m pos = some (fromPath s.tree.leaves before l)) := by
  obtain ⟨below, place⟩ := Under.exists_of_leaves s.tree _ _ _ split
  refine ⟨_, place.mem_leavesIn s.path, rfl, fun m pos found => ?_⟩
  have inPath : ∀ t ∈ fr.path, ∀ l ∈ t.leaves, l.kind = .name → l.IsNameIn (tokenize source) := by
    intro t ht l hl
    refine named l ?_
    rw [tree, Tree.leaves_branch, List.flatMap_append, leaves_front]
    simp [show fr.path = some t from ht, hl]
  have wide := (named l (by rw [split]; simp) name).start_lt_stop
  obtain ⟨passed, c, rest, inner, above, children, rfl, rfl, under⟩ := under_branch (tree ▸ place)
  rw [tree, Tree.leaves_branch] at ordered
  obtain ⟨ends, inside⟩ := from_place s.path h hw more children ordered under name wide
  have here : m.nameAt? pos =
      some ⟨.leaf l, above ++ ⟨"import_from", passed.reverse, rest⟩ :: s.path⟩ := by
    rw [found, List.append_assoc]
    rfl
  have around := importAround?_under ⟨"import_from", passed.reverse, rest⟩ s.path under inside
    (by simp [importRules])
  have filled : Crumb.fill ⟨"import_from", passed.reverse, rest⟩ c =
      .branch "import_from" (fr.trees ++ .leaf word :: back) := by
    rw [Crumb.fill, List.reverse_reverse, ← children]
  rw [filled] at around
  have target := importTarget?_from here rfl around h hw inPath
  rcases ends with ⟨as, alias'⟩ | ⟨as, plain, names⟩
  · exact ⟨fun _ => by rw [target, if_pos alias'], fun not => absurd as not⟩
  · refine ⟨fun is => absurd is as, fun _ => ?_⟩
    rw [target, plain, if_neg Bool.false_ne_true, names, tree, Tree.leaves_branch, fromPath]

/-! ## Every import of a source -/

/-- The children of an import in a tree that is regular. -/
theorem import_children {s : Focus} {rule : String} (import_ : rule ∈ importRules)
    (regular : s.tree.Regular Grammar.pythonTables (tokenize source) Grammar.importParts)
    (title : s.tree.title = rule) : ∃ us, s.tree = .branch rule us ∧
      ((rule = "import_name" ∧ ImportShape 2 us) ∨ (rule = "import_from" ∧ FromShape 6 us)) := by
  cases tree : s.tree with
  | leaf l =>
    rw [tree] at title
    simp only [importRules, List.mem_cons, List.not_mem_nil, or_false] at import_
    rcases import_ with rfl | rfl <;> cases kind : l.kind <;>
      simp [Tree.title, kind, LeafKind.title] at title
  | branch rule' us =>
    rw [tree] at title regular
    obtain rfl : rule' = rule := title
    simp only [importRules, List.mem_cons, List.not_mem_nil, or_false] at import_
    cases regular with
    | branch whole =>
      obtain ⟨r, state, known, name, traced, ends, -⟩ :=
        whole (by rcases import_ with rfl | rfl <;> simp [Grammar.importParts])
      have part : r.name ∈ Grammar.importParts := by
        rcases import_ with rfl | rfl <;> simp [name, Grammar.importParts]
      obtain ⟨target, mem⟩ := Grammar.importSteps_of_accepts known part ends
      refine ⟨us, rfl, ?_⟩
      rcases import_ with rfl | rfl <;> rw [name] at mem
      · have shape := traced_from known name traced
        rcases state with _ | _ | _ | _ | _ | _ | _ | _ | state <;>
          simp [Grammar.importSteps, Grammar.importOutline] at mem
        exact .inr ⟨rfl, shape⟩
      · have shape := traced_import known name traced
        rcases state with _ | _ | _ | state <;>
          simp [Grammar.importSteps, Grammar.importOutline] at mem
        exact .inl ⟨rfl, shape⟩

/-- At each position on a name of the statement there is this target for the name, the leaves before
it being known; there is none if the name is bound by `as`. -/
def Targets (m : Module) (statement : Tree) (target : List Leaf → Leaf → ImportTarget) : Prop :=
  ∀ before l after, statement.leaves = before ++ l :: after → l.kind = .name →
    ∀ pos, l.start ≤ pos → pos ≤ l.stop →
      (AsBefore before → importTarget? m pos = none) ∧
      (¬ AsBefore before → importTarget? m pos = some (target before l))

/-- With the Python grammar take any source, an import in its tree, a name in the import, and a
position on the name, both ends included. There is no target if the name is bound by `as`. Else the
path ends with this name. In an `import` statement the names right before it, with dots between, are
the rest of the path, and the level is zero. In a `from` statement the names before it and in front
of the word `import` are the rest of the path, and the level is the number of dots behind `from`. -/
theorem import_target : ∃ g, Grammar.python = .ok g ∧ ∀ source, ∃ m, Module.parse g source = .ok m ∧
    ∀ s : Focus, s.whole = m.root →
      (s.tree.title = "import_name" → Targets m s.tree importedPath) ∧
      (s.tree.title = "import_from" → Targets m s.tree (fromPath s.tree.leaves)) := by
  refine ⟨_, Grammar.python_eq, fun source => ?_⟩
  obtain ⟨m, parsed, -⟩ := Module.parse_of_layered Grammar.python_consistent
    Grammar.python_layered source
  refine ⟨m, parsed, fun s whole => ?_⟩
  have all := (Module.parse_regular Grammar.python_consistent Grammar.python_layered
    Grammar.python_sealed Grammar.python_secluded parsed).1
  have ordered := Module.leaves_ordered Grammar.python_consistent Grammar.python_layered parsed
  have regular := Focus.regular (whole.symm ▸ all)
  have found {f : Focus} {l : Leaf} (member : f ∈ Focus.leavesIn s.path s.tree)
      (leaf : f.tree = .leaf l) (name : l.kind = .name) (pos : Position) (after : l.start ≤ pos)
      (upTo : pos ≤ l.stop) : m.nameAt? pos = some f := by
    obtain ⟨t, path⟩ := f
    cases leaf
    exact Module.nameAt?_leaf all ordered (whole ▸ Focus.leavesIn_subset s.tree s.path member) name
      after upTo
  constructor
  · intro title before l rest split name pos after upTo
    obtain ⟨us, tree, ⟨-, shape⟩ | ⟨other, -⟩⟩ :=
      import_children (by simp [importRules]) regular title
    · cases shape with
      | paths word paths =>
        obtain ⟨f, member, leaf, answer⟩ := target_of_import tree word paths split name
        exact answer m pos (found member leaf name pos after upTo)
    · exact absurd other (by decide)
  · intro title before l rest split name pos after upTo
    obtain ⟨us, tree, ⟨other, -⟩ | ⟨-, shape⟩⟩ :=
      import_children (by simp [importRules]) regular title
    · exact absurd other (by decide)
    · cases shape with
      | dots state => omega
      | behind valid word more =>
        obtain ⟨f, member, leaf, answer⟩ := target_of_from tree valid word more
          (fun l hl => regular.name hl) (Focus.ordered (whole.symm ▸ ordered)) split name
        exact answer m pos (found member leaf name pos after upTo)

/-- In `from ..a.b import c as d, e` the path of the last name is `..a.b.e`. -/
theorem import_target_relative : ∃ g m s before l after, Grammar.python = .ok g ∧
    Module.parse g "from ..a.b import c as d, e\n".toList = .ok m ∧ Focus.whole s = m.root ∧
    s.tree.title = "import_from" ∧ s.tree.leaves = before ++ l :: after ∧ l.kind = .name ∧
    l.start ≤ ⟨1, 27⟩ ∧ ⟨1, 27⟩ ≤ l.stop ∧ ¬ AsBefore before ∧
    ∃ target, importTarget? m ⟨1, 27⟩ = some target ∧ target.level = 2 ∧
      target.path.map (·.value) = ["a".toList, "b".toList, "e".toList] := by
  obtain ⟨g, python, answers⟩ := import_target
  obtain ⟨m, parsed, targets⟩ := answers "from ..a.b import c as d, e\n".toList
  have tables : g = Grammar.pythonTables := by
    rw [Grammar.python_eq, Except.ok.injEq] at python
    exact python.symm
  subst tables
  have found : (Module.parse Grammar.pythonTables
      "from ..a.b import c as d, e\n".toList).toOption.any (fun m =>
        (m.nameAt? ⟨1, 27⟩).any fun f => (importAround? f.tree f.path).any fun s =>
          (s.tree.leaves.drop 11).head?.any fun l =>
            s.tree.title == "import_from" && l.kind == .name && decide (l.start ≤ ⟨1, 27⟩) &&
            decide (⟨1, 27⟩ ≤ l.stop) &&
            (s.tree.leaves.take 11).getLast?.all (fun as => !decide (as.IsWord .kwAs)) &&
            (fromPath s.tree.leaves (s.tree.leaves.take 11) l).level == 2 &&
            (fromPath s.tree.leaves (s.tree.leaves.take 11) l).path.map (·.value) ==
              ["a".toList, "b".toList, "e".toList]) = true := by
    decide +kernel
  rw [parsed, Except.toOption, Option.any_some] at found
  obtain ⟨f, here, found⟩ := (Option.any_eq_true _ _).1 found
  obtain ⟨s, around, found⟩ := (Option.any_eq_true _ _).1 found
  obtain ⟨l, next, found⟩ := (Option.any_eq_true _ _).1 found
  simp only [Bool.and_eq_true, beq_iff_eq, decide_eq_true_eq, Option.all_eq_true,
    Bool.not_eq_true', decide_eq_false_iff_not] at found
  obtain ⟨⟨⟨⟨⟨⟨title, name⟩, after⟩, upTo⟩, plain⟩, level⟩, path⟩ := found
  have whole : s.whole = m.root := (importAround?_whole around).trans
    (Focus.whole_of_mem_leaves (List.mem_of_find?_eq_some here)).1
  obtain ⟨rest, behind⟩ := List.head?_eq_some_iff.1 next
  have split : s.tree.leaves = s.tree.leaves.take 11 ++ l :: rest := by
    rw [← behind, List.take_append_drop]
  have not : ¬ AsBefore (s.tree.leaves.take 11) := by
    rintro ⟨as, last, word⟩
    exact plain as last word
  exact ⟨_, m, s, _, l, rest, python, parsed, whole, title, split, name, after, upTo, not, _,
    ((targets s whole).2 title _ l rest split name _ after upTo).2 not, level, path⟩

end Completion

end Caret

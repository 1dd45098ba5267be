import Caret.Proofs.ArenaParser
import Caret.Proofs.Linkage
/-!
# One well-linked tree

Whatever is fed, the arena is one tree in the end. For the tokens of a source and the Python grammar
its branches have children, and only where a single child does not stand for its branch there is but
one: a frame that is closed collapses, and recovery folds a simple statement only if it has two
children. So the leaf before a leaf can be found by climbing.

Results:
* `Tree.Trim`: which branches have a single child.
* `lasting_trims`, `trim_finish`: trees stay trim, whatever is fed and whatever recovery does.
* `Arena.OneTree`: each node is reached once, and links say by way of which branch.
* `finish_linked`: the arena in the end is one tree, and leaves are found from the next one.
-/
namespace Caret

/-- Only branches of the source and of expression statements and those that hold what recovery set
aside have a single child. -/
inductive Tree.Trim : Tree → Prop
  | leaf (l : Leaf) : Trim (.leaf l)
  | branch {rule : String} {children : List Tree}
      (single : children.length = 1 → rule ∈ Tree.errorNode :: Frame.keepsSingleChild)
      (h : ∀ c ∈ children, Trim c) : Trim (.branch rule children)

theorem Frame.close_trim {f : Frame} (h : ∀ c ∈ f.children, c.Trim) : f.close.Trim := by
  rcases f.close_cases with ⟨only, single, -, closed⟩ | ⟨closed, kept⟩ <;> rw [closed]
  · exact h only (by rw [single]; exact List.mem_singleton_self _)
  · exact .branch (fun one => List.mem_cons_of_mem _ (kept one)) h

namespace Parser

variable {g : Grammar} {label target n : Nat} {t : Token} {p q : Parser} {top : Frame}
  {rest : List Frame} {sub : RuleTable}

/-! ## Single children -/

/-- The trees in the frames are trim, and so is the tree, if there is one. -/
structure Trims (p : Parser) : Prop where
  frames : ∀ f ∈ p.stack, ∀ c ∈ f.children, c.Trim
  root : ∀ tree, p.root = some tree → tree.Trim

theorem Trims.attach {tree : Tree} (h : Trims p) (trim : tree.Trim) : Trims (p.attach tree) := by
  unfold Parser.attach
  split
  · exact ⟨h.frames, fun _ same => Option.some.inj same ▸ trim⟩
  · next top rest hs =>
    refine ⟨?_, h.root⟩
    have frames := h.frames
    rw [hs] at frames
    intro f hf c hc
    rcases List.mem_cons.1 hf with rfl | hf
    · rcases List.mem_append.1 hc with hc | hc
      · exact frames top List.mem_cons_self c hc
      · rwa [List.mem_singleton.1 hc]
    · exact frames f (List.mem_cons_of_mem _ hf) c hc

theorem Trims.addLeaf {l : Leaf} (h : Trims p) : Trims (p.addLeaf l) := by
  have counted : Trims { p with nodes := p.nodes + 1 } := ⟨h.frames, h.root⟩
  exact counted.attach (.leaf l)

theorem Trims.pop (h : Trims p) : Trims p.pop := by
  unfold Parser.pop
  split
  · exact h
  · next top rest hs =>
    have frames := h.frames
    rw [hs] at frames
    refine Trims.attach ⟨fun f hf => ?_, h.root⟩ (Frame.close_trim (frames top List.mem_cons_self))
    exact frames f (List.mem_cons_of_mem _ hf)

theorem Trims.moveTo (h : Trims p) : Trims (p.moveTo target) := by
  unfold Parser.moveTo
  split
  · exact h
  · next top rest hs =>
    refine ⟨?_, h.root⟩
    have frames := h.frames
    rw [hs] at frames
    intro f hf
    rcases List.mem_cons.1 hf with rfl | hf
    · exact frames top List.mem_cons_self
    · exact frames f (List.mem_cons_of_mem _ hf)

theorem Trims.push (h : Trims p) : Trims (p.push sub target) := by
  have moved : Trims (p.moveTo target) := h.moveTo
  refine ⟨fun f hf => ?_, moved.root⟩
  rcases List.mem_cons.1 hf with rfl | hf
  · exact fun c hc => absurd hc List.not_mem_nil
  · exact moved.frames f hf

theorem Runs.trims {r : Outcome × Parser} (h : Runs g label t p r) (trims : Trims p) :
    Trims r.2 := by
  induction h with
  | complete => exact trims
  | shift => exact popCompleted_keeps (fun _ _ h => h.pop) trims.moveTo.addLeaf
  | enter _ _ _ ih => exact ih trims.push
  | last => exact trims.pop
  | close _ _ _ _ _ ih => exact ih trims.pop
  | stuck => exact trims

/-- The statement that recovery folds has two children at least. -/
theorem Cut.several {c : Cut} (linked : Linked g p.spine)
    (source : ∀ start, g.start? = some start → start.name ≠ "simple_stmt")
    (hc : cut? [] p.stack = some c) (simple : c.container.rule.name = "simple_stmt") :
    1 < c.container.children.length := by
  rcases cut?_container hc with (other | ⟨-, several⟩) | outermost
  · rw [simple] at other
    exact absurd other (by decide)
  · exact several
  · have whole : p.stack = c.above ++ [c.container] := by
      rw [← outermost]
      exact (cut?_stack hc).symm
    obtain ⟨f, last, start⟩ := Linked.outermost linked (by rw [whole]; simp)
    rw [whole, List.getLast?_concat] at last
    cases last
    exact absurd simple (source _ start)

theorem Trims.recover {again : Bool} (linked : Linked g p.spine)
    (source : ∀ start, g.start? = some start → start.name ≠ "simple_stmt") (open_ : p.stack ≠ [])
    (h : Trims p) (hr : recover t p = (again, q)) : Trims q := by
  obtain ⟨c, hc, recovers⟩ := recover_cases open_ hr
  have frames := h.frames
  rw [show p.stack = c.stack from (cut?_stack hc).symm] at frames
  have folded : ∀ f ∈ c.fold.stack, ∀ tree ∈ f.children, tree.Trim := by
    refine c.fold_children frames fun simple => .branch (fun one => ?_) ?_
    · have several := c.several linked source hc simple
      omega
    · exact frames c.container (by simp [Cut.stack])
  have left : ∀ f ∈ c.fold.container :: c.fold.below, ∀ tree ∈ f.children, tree.Trim :=
    fun f hf => folded f (List.mem_append_right _ hf)
  have root : ∀ tree, q.root = some tree → tree.Trim := by
    rw [recovers.root_eq]
    exact h.root
  -- what hangs a tree into the container
  have added {tree : Tree} (trim : tree.Trim)
      (stack : q.stack = c.fold.container.add tree :: c.fold.below) : Trims q := by
    have bare : Trims { q with stack := c.fold.container :: c.fold.below } := ⟨left, root⟩
    have frames := (bare.attach trim).frames
    rw [(attach_open rfl).2] at frames
    exact ⟨by rw [stack]; exact frames, root⟩
  cases recovers with
  | dropped => exact ⟨left, root⟩
  | misplaced => exact added (.leaf _) rfl
  | removed =>
    refine added (.branch (fun _ => List.mem_cons_self) ?_) rfl
    intro tree ht
    obtain ⟨f, hf, ht⟩ := List.mem_flatMap.1 ht
    have above : f ∈ c.fold.above := List.mem_reverse.1 ((List.dropWhile_sublist _).subset hf)
    exact folded f (List.mem_append_left _ above) tree ht

theorem lasting_trims (ok : g.Consistent)
    (source : ∀ start, g.start? = some start → start.name ≠ "simple_stmt") :
    Lasting g fun p => Linked g p.spine ∧ Trims p := by
  refine ⟨?_, ?_, ?_⟩
  · intro t p q o known h hs
    refine ⟨h.1.shift ok known hs, ?_⟩
    rcases shift_cases ok known hs with ⟨-, -, rfl⟩ | ⟨label, -, runs⟩
    · exact h.2
    · exact runs.trims h.2
  · intro t p q again _ open_ h hr
    exact ⟨h.1.recover hr, h.2.recover h.1 source open_ hr⟩
  · intro p omitted depth h
    exact ⟨h.1, h.2.frames, h.2.root⟩

theorem trims_new (ok : g.Consistent) : Trims (new g) := by
  obtain ⟨start, hs⟩ := ok.start
  refine ⟨?_, fun tree none => by cases none⟩
  rw [new_stack hs]
  intro f hf c hc
  rw [List.mem_singleton.1 hf] at hc
  cases hc

theorem Trims.closeAll (h : Trims p) : Trims (closeAll n p) := by
  refine closeAll_keeps (fun {q top rest} hs _ _ h => ?_) (fun _ _ h => h.pop) h
  have frames := h.frames
  rw [hs] at frames
  exact ⟨fun f hf => frames f (List.mem_cons_of_mem _ hf), h.root⟩

/-- The tree in the end is trim. -/
theorem trim_finish (ok : g.Consistent)
    (source : ∀ start, g.start? = some start → start.name ≠ "simple_stmt") (tokens : List Token) :
    ((fed g tokens).finish g).root.Trim := by
  have trims := ((lasting_trims ok source).feedFrom ok (known_new g)
    ⟨linked_new ok, trims_new ok⟩ tokens).2
  have closed := trims.closeAll (n := (feedFrom g (new g) tokens).stack.length)
  unfold finish fed
  dsimp only
  split
  · next root found => exact closed.root root found
  · exact .branch (fun one => by cases one) fun c hc => absurd hc List.not_mem_nil

end Parser

/-! ## The arena -/

namespace Arena

variable {a : Arena} {root : Nat}

/-- The arena is one tree: from the root each node is reached in one way, the link of a node names
the branch that has it among its children, and the root has none. -/
structure OneTree (a : Arena) (root : Nat) : Prop where
  reached : ∀ i < a.size, ∃! path, a.follow root path = some i
  parent : ∀ i b, a.parent? i = some b ↔ i ∈ a.children b
  top : a.parent? root = none

theorem WellLinked.oneTree (h : a.WellLinked [root]) : a.OneTree root :=
  ⟨fun _ inside => h.reached_once inside, fun _ _ => h.parent_iff, h.parent?_root⟩

/-- Formed and trim. -/
def Sound (g : Grammar) (t : Tree) : Prop := t.Formed g ∧ t.Trim

theorem Sound.below {g : Grammar} {rule : String} {ts : List Tree} (h : Sound g (.branch rule ts)) :
    ∀ t ∈ ts, Sound g t := by
  obtain ⟨formed, trim⟩ := h
  cases formed with
  | branch _ _ formed =>
    cases trim with
    | branch _ trim => exact fun t ht => ⟨formed t ht, trim t ht⟩

/-- The branches of an arena that stands for a sound tree have children, and more than one where a
single child stands for its branch. -/
theorem WellLinked.branches {g : Grammar} {t : Tree} (h : a.WellLinked [root])
    (stands : a.Stands root t) (sound : Sound g t) {b : Nat} {rule : String} {cs : List Nat}
    (found : a.content? b = some (.branch rule cs)) :
    cs ≠ [] ∧ (cs.length = 1 → rule ∈ Tree.errorNode :: Frame.keepsSingleChild) := by
  obtain ⟨path, reached⟩ := h.reached (content?_lt_size found)
  obtain ⟨u, here, formed, trim⟩ := stands.follow Sound.below sound reached
  cases u with
  | leaf l =>
    rw [Stands, found] at here
    cases here
  | branch rule' ts =>
    rw [Stands] at here
    obtain ⟨cs', found', all⟩ := here
    rw [found] at found'
    cases found'
    have length := (standAll_iff.1 all).length_eq
    cases formed with
    | branch _ some _ =>
      cases trim with
      | branch single _ =>
        refine ⟨?_, fun one => single (length ▸ one)⟩
        rintro rfl
        exact some (List.length_eq_zero_iff.1 length.symm)

theorem fruitful_of_branches (branches : ∀ {b : Nat} {rule : String} {cs : List Nat},
    a.content? b = some (.branch rule cs) → cs ≠ []) : a.Fruitful := by
  intro i inside inner
  obtain ⟨node, here⟩ : ∃ node, a.nodes[i]? = some node := ⟨_, Array.getElem?_eq_getElem inside⟩
  obtain ⟨content, parent⟩ := node
  have found : a.content? i = some content := by rw [content?, here]; rfl
  cases content with
  | leaf l =>
    rw [isLeaf, found] at inner
    cases inner
  | branch rule cs =>
    rw [children, found]
    exact branches found

end Arena

namespace ArenaParser

/-- With the tables of any description the arena is one tree in the end, whatever was fed. For the
tokens of a source and the Python grammar every branch has a child, only those of the source and of
expression statements and error nodes may have a single one, and the leaf before a leaf is the one
before it in document order, or none for the first. -/
theorem finish_linked :
    (∀ lines g, Grammar.ofLines lines = .ok g → ∀ tokens, ∃ root arena,
      finish g (fed g tokens) = (root, arena) ∧ arena.OneTree root ∧
      arena.Stands root (Parser.finish g (Parser.fed g tokens)).root ∧
      arena.size = (Parser.finish g (Parser.fed g tokens)).nodes) ∧
    ∃ g, Grammar.python = .ok g ∧ ∀ source, ∃ root arena,
      finish g (fed g (tokenize source)) = (root, arena) ∧
      (∀ b rule cs, arena.content? b = some (.branch rule cs) →
        cs ≠ [] ∧ (cs.length = 1 → rule ∈ ["error_node", "file_input", "expr_stmt"])) ∧
      (arena.leaves root).map arena.content? =
        (Parser.finish g (Parser.fed g (tokenize source))).root.leaves.map (some ∘ .leaf) ∧
      ∀ k i, (arena.leaves root)[k]? = some i →
        arena.previousLeaf? i = if k = 0 then none else (arena.leaves root)[k - 1]? := by
  refine ⟨?_, _, Grammar.python_eq, ?_⟩
  · intro lines g compiled tokens
    obtain ⟨linked, stands, size⟩ := keeps_finish (Grammar.consistent_of_ofLines compiled) tokens
    exact ⟨_, _, rfl, linked.oneTree, stands, size⟩
  · intro source
    have ok := Grammar.python_consistent
    have lay := Grammar.python_layered
    obtain ⟨linked, stands, -⟩ := keeps_finish ok (tokenize source)
    have formed := (Parser.finish_formed ok lay Grammar.python_sealed source).1
    have trim := Parser.trim_finish ok (fun start hs => by rw [lay.name hs]; decide)
      (tokenize source)
    have fruitful : (finish Grammar.pythonTables (fed _ (tokenize source))).2.Fruitful :=
      Arena.fruitful_of_branches fun found => (linked.branches stands ⟨formed, trim⟩ found).1
    refine ⟨_, _, rfl, ?_, linked.leaves_stands stands, ?_⟩
    · intro b rule cs found
      exact linked.branches stands ⟨formed, trim⟩ found
    · intro k i found
      exact linked.previousLeaf?_leaves fruitful found

/-- The second of two names has no place, so recovery sets the first one aside. -/
def twoNames : List Token :=
  [⟨.name, ['x'], [], ⟨1, 0⟩⟩, ⟨.name, ['y'], [' '], ⟨1, 2⟩⟩, ⟨.newline, ['\n'], [], ⟨1, 3⟩⟩,
    ⟨.endMarker, [], [], ⟨2, 0⟩⟩]

/-- The nodes of a line of two names are one tree, the one that the tree parser recovers with. -/
theorem finish_linked_two_names :
    Grammar.ofLines (Grammar.pythonLines.map String.toList) = .ok Grammar.pythonTables ∧
    ∃ root arena,
      finish Grammar.pythonTables (fed Grammar.pythonTables twoNames) = (root, arena) ∧
      arena.OneTree root ∧ arena.Stands root
        (Parser.finish Grammar.pythonTables (Parser.fed Grammar.pythonTables twoNames)).root ∧
      arena.size = 9 := by
  have compiled : Grammar.ofLines (Grammar.pythonLines.map String.toList) =
      .ok Grammar.pythonTables := Grammar.python_eq
  have nodes : (Parser.finish Grammar.pythonTables
      (Parser.fed Grammar.pythonTables twoNames)).nodes = 9 := by decide +kernel
  obtain ⟨root, arena, finished, one, stands, size⟩ := finish_linked.1 _ _ compiled twoNames
  exact ⟨compiled, root, arena, finished, one, stands, size.trans nodes⟩

example : let (root, arena) := finish Grammar.pythonTables (fed Grammar.pythonTables twoNames)
    (arena.leaves root, (arena.leaves root).map arena.previousLeaf?) =
      ([0, 3, 5, 7], [none, some 0, some 3, some 5]) := by decide +kernel

end ArenaParser

end Caret

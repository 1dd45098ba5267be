import Caret.Proofs.Arena
import Caret.Proofs.Leaves
/-!
# Parsing into an arena

The parser's own steps, with nodes of an arena in place of trees: frames hold the numbers of their
children, a leaf and a closed frame are made in the arena, a frame that collapses hands on the
number of its only child, and recovery moves numbers from the frames that it takes off to a branch.
What is noted of broken statements has no part in this.

Whatever is fed, this goes hand in hand with the parser of trees: it answers the same, and the nodes
in its frames stand for the trees there. No number is lost or held twice on the way, so the arena
stays well linked.

Results:
* `ArenaParser.fed`, `ArenaParser.finish`: parse tokens into an arena.
* `Keeps`: the nodes that are held stand for the trees of a parser, and the arena is well linked.
* `Keeps.pop`, `Keeps.recover`: closing a frame and recovery keep this.
* `Keeps.feed`: so does a token, which is answered alike.
* `keeps_finish`: the arena in the end is well linked below its root, which stands for the tree.
-/
namespace Caret

/-- A rule in progress, with the numbers of its children. -/
structure ArenaFrame where
  rule : RuleTable
  state : Nat
  children : List Nat

namespace ArenaFrame

def arcs (f : ArenaFrame) : List Arc := f.rule.arcs f.state

def add (f : ArenaFrame) (i : Nat) : ArenaFrame := { f with children := f.children ++ [i] }

/-- The node of a closed frame, which may have to be made. -/
def close (f : ArenaFrame) (a : Arena) : Nat × Arena :=
  match f.children with
  | [only] =>
    if Frame.keepsSingleChild.contains f.rule.name then (a.size, a.addBranch f.rule.name [only])
    else (only, a)
  | children => (a.size, a.addBranch f.rule.name children)

/-- The frame can take a new statement. -/
def takesStatement (f : ArenaFrame) : Bool :=
  f.rule.name == "file_input" ||
    ((f.rule.name == "suite" || f.rule.name == "simple_stmt") && 1 < f.children.length)

end ArenaFrame

/-- A parse in progress that keeps its nodes in an arena. -/
structure ArenaParser where
  /-- The rules in progress, innermost first. -/
  stack : List ArenaFrame
  arena : Arena
  /-- The node of the start rule, once it is complete. -/
  root : Option Nat
  omitted : List Nat
  depth : Nat

/-- A stack divided at the frame that can take a new statement. -/
structure ArenaCut where
  above : List ArenaFrame
  container : ArenaFrame
  below : List ArenaFrame

namespace ArenaCut

/-- The stack that a cut divides. -/
def stack (c : ArenaCut) : List ArenaFrame := c.above ++ c.container :: c.below

/-- Divide the stack at the innermost frame that can take a statement, else at the outermost one. -/
def of? (above : List ArenaFrame) : List ArenaFrame → Option ArenaCut
  | [] => none
  | f :: below =>
    if f.takesStatement || below.isEmpty then some ⟨above.reverse, f, below⟩
    else of? (f :: above) below

/-- Fold a simple statement into the container two frames further out. -/
def fold (c : ArenaCut) (a : Arena) : ArenaCut × Arena :=
  if c.container.rule.name == "simple_stmt" then
    let folded := a.size
    let emptied := { c.container with children := [] }
    let c' := match c.below with
      | [] => { c with container := emptied.add folded }
      | [outer] => ⟨c.above ++ [emptied], outer.add folded, []⟩
      | inner :: outer :: below => ⟨c.above ++ [emptied, inner], outer.add folded, below⟩
    (c', a.addBranch c.container.rule.name c.container.children)
  else (c, a)

/-- The frames taken off, outermost first, from the first one with children on. -/
def removed (c : ArenaCut) : List ArenaFrame := c.above.reverse.dropWhile (·.children.isEmpty)

end ArenaCut

namespace ArenaParser

def new (g : Grammar) : ArenaParser :=
  ⟨(g.start?.map fun rule => ⟨rule, 0, []⟩).toList, .empty, none, [], 0⟩

def isDone (q : ArenaParser) : Bool := q.stack.isEmpty

/-- Hang a node into the innermost frame; without a frame it is the root. -/
def attach (q : ArenaParser) (i : Nat) : ArenaParser :=
  match q.stack with
  | [] => { q with root := some i }
  | top :: rest => { q with stack := top.add i :: rest }

/-- Close the innermost frame. -/
def pop (q : ArenaParser) : ArenaParser :=
  match q.stack with
  | [] => q
  | top :: rest =>
    let (node, arena) := top.close q.arena
    { q with stack := rest, arena }.attach node

/-- Close frames that can do nothing but end, at most so many. -/
def popCompleted : Nat → ArenaParser → ArenaParser
  | 0, q => q
  | n + 1, q =>
    match q.stack with
    | [] => q
    | top :: _ => if top.rule.acceptsOnly top.state then popCompleted n q.pop else q

def moveTo (q : ArenaParser) (state : Nat) : ArenaParser :=
  match q.stack with
  | [] => q
  | top :: rest => { q with stack := { top with state } :: rest }

/-- Make a leaf in the innermost frame. -/
def addLeaf (q : ArenaParser) (l : Leaf) : ArenaParser :=
  { q with arena := q.arena.addLeaf l }.attach q.arena.size

/-- Enter a rule. -/
def push (q : ArenaParser) (rule : RuleTable) (state : Nat) : ArenaParser :=
  let q := q.moveTo state
  { q with stack := ⟨rule, 0, []⟩ :: q.stack }

/-- Shift a token with this label, entering and closing rules as needed. -/
def advance (g : Grammar) (label : Nat) (t : Token) : Nat → ArenaParser →
    Parser.Outcome × ArenaParser
  | 0, q => (.unfinished, q)
  | n + 1, q =>
    match q.stack with
    | [] => (.ended, q)
    | top :: _ =>
      match Parser.move? g label top.arcs with
      | some (.shift target) =>
        let isKeyword := match g.label? label with
          | some (.keyword _) => true
          | _ => false
        let leaf : Leaf := ⟨.ofToken isKeyword t.kind, t.value, t.trivia, t.start⟩
        let q := (q.moveTo target).addLeaf leaf
        let q := popCompleted q.stack.length q
        (.shifted q.isDone, q)
      | some (.enter rule target) => advance g label t n (q.push rule target)
      | none =>
        if top.rule.accepts top.state then
          let q := q.pop
          if q.isDone then (.ended, q) else advance g label t n q
        else (.stuck, q)

/-- Shift a token if it has a label and a place. -/
def shift (g : Grammar) (t : Token) (q : ArenaParser) : Parser.Outcome × ArenaParser :=
  match Parser.classify g t with
  | some label => advance g label t (q.stack.length + g.rules.size + 1) q
  | none => (.stuck, q)

/-- Take a token that has no place. The answer says whether the token should be tried again. -/
def recover (t : Token) (q : ArenaParser) : Bool × ArenaParser :=
  match ArenaCut.of? [] q.stack with
  | none => (false, q)
  | some cut =>
    let (cut, arena) := cut.fold q.arena
    match cut.removed with
    | [] =>
      let q := { q with stack := cut.container :: cut.below, arena }
      if t.kind = .indent then (false, { q with omitted := q.depth :: q.omitted })
      else (false, q.addLeaf ⟨.error t.kind, t.value, t.trivia, t.start⟩)
    | outermost :: rest =>
      let nodes := (outermost :: rest).flatMap (·.children)
      (true, { q with
        stack := cut.container.add arena.size :: cut.below
        arena := arena.addBranch Tree.errorNode nodes })

/-- Try a token, recovering until it is shifted or absorbed. -/
def offer (g : Grammar) (t : Token) : Nat → ArenaParser → Except ParseError Bool × ArenaParser
  | 0, q => (.ok false, q)
  | n + 1, q =>
    if q.isDone then (.error (.ofToken t), q)
    else
      match shift g t q with
      | (.shifted done, q) => (.ok done, q)
      | (.ended, q) => (.error (.ofToken t), q)
      | (.stuck, q) =>
        match recover t q with
        | (true, q) => offer g t n q
        | (false, q) => (.ok false, q)
      | (.unfinished, q) => (.ok false, q)

/-- Count the block that a token opens or closes. -/
def count (kind : TokenKind) (q : ArenaParser) : ArenaParser :=
  match kind with
  | .indent => { q with depth := q.depth + 1 }
  | .dedent => { q with depth := q.depth - 1 }
  | _ => q

/-- A token of this type closes the block whose opening token was dropped last. -/
def closesOmitted (kind : TokenKind) (q : ArenaParser) : Bool :=
  kind == .dedent && q.omitted.head? == some q.depth

/-- Feed a token. The answer says whether it completed the start rule. -/
def feed (g : Grammar) (t : Token) (q : ArenaParser) : Except ParseError Bool × ArenaParser :=
  if q.closesOmitted t.kind then (.ok false, { q with omitted := q.omitted.tail })
  else offer g t (q.stack.length + 1) (q.count t.kind)

/-- The state of a new parser after these tokens, whatever was said to them. -/
def fed (g : Grammar) (tokens : List Token) : ArenaParser :=
  tokens.foldl (fun q t => (feed g t q).2) (new g)

/-- Close all frames, at most so many; those without children are dropped, but for the outermost. -/
def closeAll : Nat → ArenaParser → ArenaParser
  | 0, q => q
  | n + 1, q =>
    match q.stack with
    | [] => q
    | top :: rest =>
      if top.children.isEmpty && !rest.isEmpty then closeAll n { q with stack := rest }
      else closeAll n q.pop

/-- Close every open rule and give the root and its arena. -/
def finish (g : Grammar) (q : ArenaParser) : Nat × Arena :=
  let q := closeAll q.stack.length q
  match q.root with
  | some root => (root, q.arena)
  | none => (q.arena.size, q.arena.addBranch ((g.start?.map (·.name)).getD "file_input") [])

end ArenaParser

namespace Arena

variable {a a' : Arena} {f : ArenaFrame} {f' : Frame} {held : List Nat}

/-! ## Frames -/

/-- The frame is in the same state of the same rule, and its nodes stand for the trees. -/
structure Frames (a : Arena) (f : ArenaFrame) (f' : Frame) : Prop where
  rule : f.rule = f'.rule
  state : f.state = f'.state
  children : List.Forall₂ a.Stands f.children f'.children

theorem Frames.grow (grows : a.Grows a') (h : a.Frames f f') : a'.Frames f f' :=
  ⟨h.rule, h.state, h.children.imp fun _ _ => Stands.grow grows⟩

theorem Frames.arcs (h : a.Frames f f') : f.arcs = f'.arcs := by
  rw [ArenaFrame.arcs, Frame.arcs, h.rule, h.state]

theorem Frames.add {i : Nat} {t : Tree} (h : a.Frames f f') (stands : a.Stands i t) :
    a.Frames (f.add i) (f'.add t) :=
  ⟨h.rule, h.state, List.rel_append h.children (.cons stands .nil)⟩

theorem Frames.takesStatement (h : a.Frames f f') :
    f.takesStatement = Parser.takesStatement f' := by
  simp only [ArenaFrame.takesStatement, Parser.takesStatement, h.rule, h.children.length_eq]

theorem isEmpty_eq {α β : Type} {R : α → β → Prop} {xs : List α} {ys : List β}
    (h : List.Forall₂ R xs ys) : xs.isEmpty = ys.isEmpty := by
  cases h <;> rfl

/-- The numbers in frames, given innermost first; those in the outermost come first. -/
def heldIn : List ArenaFrame → List Nat
  | [] => []
  | f :: below => heldIn below ++ f.children

theorem heldIn_append (above below : List ArenaFrame) :
    heldIn (above ++ below) = heldIn below ++ heldIn above := by
  induction above with
  | nil => simp [heldIn]
  | cons f above ih => simp only [List.cons_append, heldIn, ih, List.append_assoc]

/-- Closing a frame: its node stands for the tree of the closed frame, and is held instead of the
children. -/
theorem Frames.close (h : a.Frames f f') (linked : a.WellLinked (held ++ f.children)) :
    a.Grows (f.close a).2 ∧ (f.close a).2.Stands (f.close a).1 f'.close ∧
      (f.close a).2.WellLinked (held ++ [(f.close a).1]) ∧
      (f.close a).2.size = if f'.collapses then a.size else a.size + 1 := by
  obtain ⟨rule, state, children⟩ := f
  obtain ⟨rule', state', children'⟩ := f'
  obtain ⟨same, -, all⟩ := h
  dsimp only at same all linked
  subst same
  have made : a.Grows (a.addBranch rule.name children) ∧
      (a.addBranch rule.name children).Stands a.size (.branch rule.name children') ∧
      (a.addBranch rule.name children).WellLinked (held ++ [a.size]) ∧
      (a.addBranch rule.name children).size = a.size + 1 :=
    ⟨grows_addBranch, stands_addBranch all, linked.addBranch, size_addBranch⟩
  match all with
  | .nil => exact made
  | .cons _ (.cons _ _) => exact made
  | .cons only .nil =>
    unfold ArenaFrame.close Frame.close Frame.collapses
    dsimp only
    cases kept : Frame.keepsSingleChild.contains rule.name with
    | true => exact made
    | false => exact ⟨fun h => h, only, linked, rfl⟩

/-! ## Cutting the stack -/

variable {c : ArenaCut} {c' : Parser.Cut}

/-- The stack is cut at the same place, and its frames stand for the frames. -/
structure Cuts (a : Arena) (c : ArenaCut) (c' : Parser.Cut) : Prop where
  above : List.Forall₂ a.Frames c.above c'.above
  container : a.Frames c.container c'.container
  below : List.Forall₂ a.Frames c.below c'.below

theorem cuts_of? {above below : List ArenaFrame} {above' below' : List Frame}
    (ha : List.Forall₂ a.Frames above above') (hb : List.Forall₂ a.Frames below below')
    (h : Parser.cut? above' below' = some c') :
    ∃ c, ArenaCut.of? above below = some c ∧ a.Cuts c c' ∧ c.stack = above.reverse ++ below := by
  induction hb generalizing above above' with
  | nil => simp [Parser.cut?] at h
  | @cons f f' below below' hf hb ih =>
    have same : (f.takesStatement || below.isEmpty) =
        (Parser.takesStatement f' || below'.isEmpty) := by
      rw [hf.takesStatement, isEmpty_eq hb]
    rw [Parser.cut?] at h
    rw [ArenaCut.of?, same]
    split at h
    · next takes =>
      cases h
      rw [if_pos takes]
      exact ⟨_, rfl, ⟨List.rel_reverse ha, hf, hb⟩, rfl⟩
    · next passes =>
      rw [if_neg passes]
      obtain ⟨c, found, cuts, stack⟩ := ih (.cons hf ha) h
      exact ⟨c, found, cuts, by rw [stack, List.reverse_cons, List.append_assoc]; rfl⟩

/-- Folding moves the numbers of the statement to a new branch. -/
theorem wellLinked_fold (linked : a.WellLinked (heldIn c.stack)) :
    (c.fold a).2.WellLinked (heldIn (c.fold a).1.stack) := by
  unfold ArenaCut.fold
  split
  · have last : a.WellLinked (heldIn c.below ++ heldIn c.above ++ c.container.children) := by
      apply linked.perm
      simp only [ArenaCut.stack, heldIn_append, heldIn, List.perm_iff_count, List.count_append]
      intro i
      omega
    have moved : (a.addBranch c.container.rule.name c.container.children).WellLinked _ :=
      last.addBranch
    apply moved.perm
    dsimp only
    split <;>
    · next below =>
      simp only [below, ArenaCut.stack, heldIn_append, heldIn, ArenaFrame.add,
        List.perm_iff_count, List.count_append, List.count_nil]
      intro i
      omega
  · exact linked

/-- Folding goes the same way with nodes as with trees. -/
theorem Cuts.fold (h : a.Cuts c c') : a.Grows (c.fold a).2 ∧
    (c.fold a).2.Cuts (c.fold a).1 c'.fold ∧ (c.fold a).2.size = a.size + c'.folds := by
  obtain ⟨above, container, below⟩ := c
  obtain ⟨above', container', below'⟩ := c'
  obtain ⟨above_, container_, below_⟩ := h
  dsimp only at above_ container_ below_
  unfold ArenaCut.fold Parser.Cut.fold Parser.Cut.folds
  dsimp only
  rw [container_.rule]
  split
  · have grows : a.Grows (a.addBranch container'.rule.name container.children) := grows_addBranch
    have folded : (a.addBranch container'.rule.name container.children).Stands a.size
        (.branch container'.rule.name container'.children) := stands_addBranch container_.children
    have emptied : (a.addBranch container'.rule.name container.children).Frames
        ⟨container'.rule, container.state, []⟩ ⟨container'.rule, container'.state, []⟩ :=
      ⟨rfl, container_.state, .nil⟩
    have later {fs : List ArenaFrame} {fs' : List Frame} (h : List.Forall₂ a.Frames fs fs') :
        List.Forall₂ (a.addBranch container'.rule.name container.children).Frames fs fs' :=
      h.imp fun _ _ => Frames.grow grows
    refine ⟨grows, ?_, size_addBranch⟩
    match below_ with
    | .nil => exact ⟨later above_, emptied.add folded, .nil⟩
    | .cons outer .nil =>
      exact ⟨List.rel_append (later above_) (.cons emptied .nil), (outer.grow grows).add folded,
        .nil⟩
    | .cons inner (.cons outer rest) =>
      exact ⟨List.rel_append (later above_) (.cons emptied (.cons (inner.grow grows) .nil)),
        (outer.grow grows).add folded, later rest⟩
  · exact ⟨fun h => h, ⟨above_, container_, below_⟩, rfl⟩

/-- The frames taken off hold all numbers above the container. -/
theorem Cuts.removed (h : a.Cuts c c') :
    List.Forall₂ a.Frames c.removed c'.removed ∧
      c.removed.flatMap (·.children) = heldIn c.above := by
  constructor
  · have reversed := List.rel_reverse h.above
    unfold ArenaCut.removed Parser.Cut.removed
    generalize c.above.reverse = fs at reversed ⊢
    generalize c'.above.reverse = fs' at reversed ⊢
    induction reversed with
    | nil => exact .nil
    | cons hf rest ih =>
      rw [List.dropWhile_cons, List.dropWhile_cons, isEmpty_eq hf.children]
      split
      · exact ih
      · exact .cons hf rest
  · have reversed (fs : List ArenaFrame) : fs.reverse.flatMap (·.children) = heldIn fs := by
      induction fs with
      | nil => rfl
      | cons f fs ih => simp [heldIn, ih]
    rw [ArenaCut.removed, Parser.flatMap_dropWhile fun f empty => List.isEmpty_iff.1 empty,
      reversed]

end Arena

namespace ArenaParser

variable {g : Grammar} {label target n : Nat} {t : Token} {l : Leaf} {q : ArenaParser} {p : Parser}
  {sub : RuleTable} {top : Frame} {rest : List Frame} {loose : List Nat}

/-! ## Hand in hand -/

/-- The numbers that are held: the root, or those in the frames. -/
def held (q : ArenaParser) : List Nat := q.root.toList ++ Arena.heldIn q.stack

/-- The nodes in the frames, or the root, stand for the trees of the parser, there are as many nodes
as it has counted, and the arena is well linked below what is held. -/
structure Keeps (q : ArenaParser) (p : Parser) : Prop where
  stack : List.Forall₂ q.arena.Frames q.stack p.stack
  root : Option.Rel q.arena.Stands q.root p.root
  whole : p.Whole
  size : q.arena.size = p.nodes
  omitted : q.omitted = p.omitted
  depth : q.depth = p.depth
  linked : q.arena.WellLinked q.held

/-- The same without a root, and with some numbers held besides those in the frames. -/
structure Lends (q : ArenaParser) (p : Parser) (loose : List Nat) : Prop where
  stack : List.Forall₂ q.arena.Frames q.stack p.stack
  root : q.root = none ∧ p.root = none
  size : q.arena.size = p.nodes
  omitted : q.omitted = p.omitted
  depth : q.depth = p.depth
  linked : q.arena.WellLinked (Arena.heldIn q.stack ++ loose)

theorem Keeps.lends (h : Keeps q p) (hs : p.stack = top :: rest) : Lends q p [] := by
  have none : p.root = none := h.whole.root hs
  have none' : q.root = .none := by
    have root := h.root
    rw [none] at root
    cases hr : q.root with
    | none => rfl
    | some i =>
      rw [hr] at root
      cases root
  have linked := h.linked
  rw [held, none', Option.toList_none, List.nil_append] at linked
  exact ⟨h.stack, ⟨none', none⟩, h.size, h.omitted, h.depth, by rwa [List.append_nil]⟩

theorem Lends.keeps (h : Lends q p []) (hs : p.stack = top :: rest) : Keeps q p := by
  have linked := h.linked
  rw [List.append_nil] at linked
  refine ⟨h.stack, ?_, Parser.whole_of_open h.root.2 hs, h.size, h.omitted, h.depth, ?_⟩
  · rw [h.root.1, h.root.2]
    exact .none
  · rwa [held, h.root.1, Option.toList_none, List.nil_append]

/-- Hanging the node into the innermost frame or making it the root. -/
theorem Lends.attach {i : Nat} {tree : Tree} (h : Lends q p [i]) (stands : q.arena.Stands i tree) :
    Keeps (q.attach i) (p.attach tree) := by
  obtain ⟨stack, arena, root, omitted, depth⟩ := q
  obtain ⟨stack', root', broken, omitted', depth', nodes⟩ := p
  obtain ⟨frames, ⟨none, none'⟩, size, omits, deep, linked⟩ := h
  dsimp only at frames none none' size omits deep linked stands
  subst none none'
  cases frames with
  | nil =>
    exact ⟨.nil, .some stands, by simp [Parser.Whole, Parser.attach], size, omits, deep, linked⟩
  | cons top rest =>
    refine ⟨.cons (top.add stands) rest, .none, by simp [Parser.Whole, Parser.attach], size, omits,
      deep, ?_⟩
    rw [Arena.heldIn, List.append_assoc] at linked
    exact linked

/-- The innermost frame and those below it. -/
theorem Keeps.innermost (h : Keeps q p) (hs : p.stack = top :: rest) :
    ∃ f fs, q.stack = f :: fs ∧ q.arena.Frames f top ∧ List.Forall₂ q.arena.Frames fs rest := by
  have frames := h.stack
  rw [hs, List.forall₂_cons_right_iff] at frames
  obtain ⟨f, fs, hf, all, eq⟩ := frames
  exact ⟨f, fs, eq, hf, all⟩

theorem Keeps.outside (h : Keeps q p) (hs : p.stack = []) : q.stack = [] := by
  have frames := h.stack
  rwa [hs, List.forall₂_nil_right_iff] at frames

theorem Keeps.isDone (h : Keeps q p) : q.isDone = p.isDone := Arena.isEmpty_eq h.stack

/-! ### Entering, closing and shifting -/

theorem Keeps.pop (h : Keeps q p) : Keeps q.pop p.pop := by
  cases hs : p.stack with
  | nil =>
    rw [ArenaParser.pop, h.outside hs, Parser.pop, hs]
    exact h
  | cons top rest =>
    obtain ⟨f, fs, hq, frame, frames⟩ := h.innermost hs
    have lends := h.lends hs
    have linked := lends.linked
    rw [hq, Arena.heldIn, List.append_nil] at linked
    obtain ⟨grows, stands, linked', size⟩ := frame.close linked
    rw [h.size] at size
    rw [ArenaParser.pop, hq, Parser.pop, hs]
    exact Lends.attach ⟨frames.imp fun _ _ => Arena.Frames.grow grows, lends.root, size, h.omitted,
      h.depth, linked'⟩ stands

theorem Keeps.popCompleted (h : Keeps q p) :
    Keeps (popCompleted n q) (Parser.popCompleted n p) := by
  induction n generalizing q p with
  | zero => exact h
  | succ n ih =>
    unfold ArenaParser.popCompleted Parser.popCompleted
    cases hs : p.stack with
    | nil =>
      rw [h.outside hs]
      exact h
    | cons top rest =>
      obtain ⟨f, fs, hq, frame, -⟩ := h.innermost hs
      rw [hq]
      dsimp only
      rw [frame.rule, frame.state]
      split
      · exact ih h.pop
      · exact h

theorem Lends.moveTo (h : Lends q p loose) : Lends (q.moveTo target) (p.moveTo target) loose := by
  obtain ⟨stack, arena, root, omitted, depth⟩ := q
  obtain ⟨stack', root', broken, omitted', depth', nodes⟩ := p
  obtain ⟨frames, roots, size, omits, deep, linked⟩ := h
  dsimp only at frames roots size omits deep linked
  cases frames with
  | nil => exact ⟨.nil, roots, size, omits, deep, linked⟩
  | cons top rest =>
    exact ⟨.cons ⟨top.rule, rfl, top.children⟩ rest, roots, size, omits, deep, linked⟩

theorem Keeps.push (h : Keeps q p) (hs : p.stack = top :: rest) :
    Keeps (q.push sub target) (p.push sub target) := by
  have moved : Lends (q.moveTo target) (p.moveTo target) [] := (h.lends hs).moveTo
  refine Lends.keeps ⟨?_, moved.root, moved.size, moved.omitted, moved.depth, ?_⟩
    (Parser.push_stack hs)
  · exact .cons ⟨rfl, rfl, .nil⟩ moved.stack
  · rw [ArenaParser.push, Arena.heldIn, List.append_nil]
    exact moved.linked

theorem Lends.addLeaf (h : Lends q p []) : Keeps (q.addLeaf l) (p.addLeaf l) := by
  refine Lends.attach ⟨?_, h.root, ?_, h.omitted, h.depth, ?_⟩ Arena.stands_addLeaf
  · exact h.stack.imp fun _ _ => Arena.Frames.grow Arena.grows_addLeaf
  · rw [Arena.size_addLeaf, h.size]
  · have linked := h.linked.addLeaf (l := l)
    rwa [List.append_nil] at linked

/-- The same answer is given, and the states after it go hand in hand. -/
def Agrees {α : Type} (x : α × ArenaParser) (y : α × Parser) : Prop := x.1 = y.1 ∧ Keeps x.2 y.2

theorem Agrees.answer {α : Type} {x : α × ArenaParser} {y : α × Parser} (h : Agrees x y) :
    ∃ answer q p, x = (answer, q) ∧ y = (answer, p) ∧ Keeps q p :=
  ⟨x.1, x.2, y.2, rfl, Prod.ext h.1.symm rfl, h.2⟩

theorem Keeps.advance (h : Keeps q p) :
    Agrees (advance g label t n q) (Parser.advance g label t n p) := by
  induction n generalizing q p with
  | zero => exact ⟨rfl, h⟩
  | succ n ih =>
    unfold ArenaParser.advance Parser.advance
    cases hs : p.stack with
    | nil =>
      rw [h.outside hs]
      exact ⟨rfl, h⟩
    | cons top rest =>
      obtain ⟨f, fs, hq, frame, -⟩ := h.innermost hs
      rw [hq]
      dsimp only
      rw [frame.arcs]
      cases Parser.move? g label top.arcs with
      | none =>
        dsimp only
        rw [frame.rule, frame.state, h.pop.isDone]
        split
        · split
          · exact ⟨rfl, h.pop⟩
          · exact ih h.pop
        · exact ⟨rfl, h⟩
      | some move =>
        cases move with
        | enter rule target => exact ih (h.push hs)
        | shift target =>
          have moved : Lends (q.moveTo target) (p.moveTo target) [] := (h.lends hs).moveTo
          have added : Keeps ((q.moveTo target).addLeaf (Parser.leafOf g label t))
              ((p.moveTo target).addLeaf (Parser.leafOf g label t)) := moved.addLeaf
          have closed : Keeps (ArenaParser.popCompleted _ _) (Parser.take g label target t p) :=
            added.popCompleted
          rw [← added.stack.length_eq] at closed
          exact ⟨congrArg Parser.Outcome.shifted closed.isDone, closed⟩

theorem Keeps.shift (h : Keeps q p) : Agrees (shift g t q) (Parser.shift g t p) := by
  unfold ArenaParser.shift Parser.shift
  cases Parser.classify g t with
  | none => exact ⟨rfl, h⟩
  | some label =>
    rw [h.stack.length_eq]
    exact h.advance

/-! ### Recovery -/

/-- The stacks are cut alike. What is left when the frames above the container are gone lends the
numbers in them. -/
theorem Keeps.cut (h : Keeps q p) (hs : p.stack = top :: rest) :
    ∃ c c', ArenaCut.of? [] q.stack = some c ∧ Parser.cut? [] p.stack = some c' ∧
      List.Forall₂ (c.fold q.arena).2.Frames (c.fold q.arena).1.removed c'.fold.removed ∧
      Lends
        { q with stack := (c.fold q.arena).1.container :: (c.fold q.arena).1.below,
                 arena := (c.fold q.arena).2 }
        { p with stack := c'.fold.container :: c'.fold.below, nodes := p.nodes + c'.folds }
        ((c.fold q.arena).1.removed.flatMap (·.children)) := by
  obtain ⟨c', hc'⟩ := Parser.cut?_isSome [] (hs ▸ List.cons_ne_nil top rest)
  obtain ⟨c, hc, cuts, stack⟩ := Arena.cuts_of? .nil h.stack hc'
  have lends := h.lends hs
  have linked := lends.linked
  rw [List.append_nil, ← show c.stack = q.stack from stack] at linked
  obtain ⟨grows, folded, size⟩ := cuts.fold
  have linked := Arena.wellLinked_fold linked
  obtain ⟨removed, numbers⟩ := folded.removed
  rw [ArenaCut.stack, Arena.heldIn_append, ← numbers] at linked
  rw [h.size] at size
  exact ⟨c, c', hc, hc', removed, .cons folded.container folded.below, lends.root, size, h.omitted,
    h.depth, linked⟩

/-- The numbers that are lent go into a branch, which is hung into the innermost frame. -/
theorem Lends.addBranch {rule : String} {ts : List Tree} (h : Lends q p loose)
    (stand : List.Forall₂ q.arena.Stands loose ts) (broken : List BrokenStatement) :
    Keeps ({ q with arena := q.arena.addBranch rule loose }.attach q.arena.size)
      ({ p with nodes := p.nodes + 1, broken }.attach (.branch rule ts)) := by
  refine Lends.attach ⟨?_, h.root, ?_, h.omitted, h.depth, h.linked.addBranch⟩
    (Arena.stands_addBranch stand)
  · exact h.stack.imp fun _ _ => Arena.Frames.grow Arena.grows_addBranch
  · rw [Arena.size_addBranch, h.size]

theorem Keeps.recover (h : Keeps q p) : Agrees (recover t q) (Parser.recover t p) := by
  unfold ArenaParser.recover Parser.recover
  cases hs : p.stack with
  | nil =>
    rw [h.outside hs]
    exact ⟨rfl, h⟩
  | cons top rest =>
    obtain ⟨c, c', hc, hc', removed, left⟩ := h.cut hs
    rw [hs] at hc'
    rw [hc, hc']
    dsimp only
    cases hr : (c.fold q.arena).1.removed with
    | nil =>
      rw [hr] at removed left
      rw [List.forall₂_nil_left_iff.1 removed]
      dsimp only
      split
      · refine ⟨rfl,
          Lends.keeps ⟨left.stack, left.root, left.size, ?_, left.depth, left.linked⟩ rfl⟩
        exact congrArg₂ List.cons h.depth h.omitted
      · exact ⟨rfl, left.addLeaf⟩
    | cons outermost others =>
      rw [hr] at removed left
      obtain ⟨outermost', others', -, -, hr'⟩ := List.forall₂_cons_left_iff.1 removed
      rw [hr'] at removed ⊢
      have stand := List.rel_flatMap removed fun _ _ hf => Arena.Frames.children hf
      exact ⟨rfl, left.addBranch stand _⟩

/-! ### Feeding -/

theorem Keeps.offer (h : Keeps q p) : Agrees (offer g t n q) (Parser.offer g t n p) := by
  induction n generalizing q p with
  | zero => exact ⟨rfl, h⟩
  | succ n ih =>
    unfold ArenaParser.offer Parser.offer
    rw [h.isDone]
    split
    · exact ⟨rfl, h⟩
    obtain ⟨outcome, q', p', hq, hp, shifted⟩ := (h.shift (g := g) (t := t)).answer
    rw [hq, hp]
    cases outcome with
    | shifted done => exact ⟨rfl, shifted⟩
    | ended => exact ⟨rfl, shifted⟩
    | unfinished => exact ⟨rfl, shifted⟩
    | stuck =>
      obtain ⟨again, q'', p'', hq', hp', recovered⟩ := (shifted.recover (t := t)).answer
      dsimp only
      rw [hq', hp']
      cases again with
      | true => exact ih recovered
      | false => exact ⟨rfl, recovered⟩

theorem Keeps.count (h : Keeps q p) (kind : TokenKind) : Keeps (q.count kind) (p.count kind) := by
  cases kind with
  | indent =>
    exact ⟨h.stack, h.root, h.whole, h.size, h.omitted, congrArg (· + 1) h.depth, h.linked⟩
  | dedent =>
    exact ⟨h.stack, h.root, h.whole, h.size, h.omitted, congrArg (· - 1) h.depth, h.linked⟩
  | _ => exact h

/-- A token is answered alike, and the states after it go hand in hand. -/
theorem Keeps.feed (h : Keeps q p) : Agrees (feed g t q) (Parser.feed g t p) := by
  have closes : q.closesOmitted t.kind = p.closesOmitted t.kind := by
    rw [ArenaParser.closesOmitted, Parser.closesOmitted, h.omitted, h.depth]
  unfold ArenaParser.feed Parser.feed
  rw [closes]
  split
  · exact ⟨rfl, h.stack, h.root, h.whole, h.size, congrArg List.tail h.omitted, h.depth, h.linked⟩
  · rw [h.stack.length_eq]
    exact (h.count t.kind).offer

theorem keeps_new (ok : g.Consistent) : Keeps (new g) (Parser.new g) := by
  obtain ⟨start, hs⟩ := ok.start
  have stack : (new g).stack = [⟨start, 0, []⟩] := by simp [ArenaParser.new, hs]
  refine Lends.keeps ⟨?_, ⟨rfl, rfl⟩, rfl, rfl, rfl, ?_⟩ (Parser.new_stack hs)
  · rw [stack, Parser.new_stack hs]
    exact .cons ⟨rfl, rfl, .nil⟩ .nil
  · rw [stack]
    exact Arena.wellLinked_empty

theorem keeps_fed (ok : g.Consistent) (tokens : List Token) :
    Keeps (fed g tokens) (Parser.fed g tokens) := by
  have all {q : ArenaParser} {p : Parser} (h : Keeps q p) :
      Keeps (tokens.foldl (fun q t => (ArenaParser.feed g t q).2) q)
        (Parser.feedFrom g p tokens) := by
    induction tokens generalizing q p with
    | nil => exact h
    | cons t tokens ih => exact ih h.feed.2
  exact all (keeps_new ok)

/-! ### The end -/

theorem Keeps.closeAll (h : Keeps q p) : Keeps (closeAll n q) (Parser.closeAll n p) := by
  induction n generalizing q p with
  | zero => exact h
  | succ n ih =>
    unfold ArenaParser.closeAll Parser.closeAll
    cases hs : p.stack with
    | nil =>
      rw [h.outside hs]
      exact h
    | cons top rest =>
      obtain ⟨f, fs, hq, frame, frames⟩ := h.innermost hs
      rw [hq]
      dsimp only
      rw [Arena.isEmpty_eq frame.children, Arena.isEmpty_eq frames]
      split
      · next dropped =>
        apply ih
        rw [Bool.and_eq_true, List.isEmpty_iff, Bool.not_eq_true', List.isEmpty_eq_false_iff]
          at dropped
        obtain ⟨next, below, hr⟩ := List.exists_cons_of_ne_nil dropped.2
        have lends := h.lends hs
        have empty : f.children = [] := by
          have children := frame.children
          rwa [dropped.1, List.forall₂_nil_right_iff] at children
        have linked := lends.linked
        rw [hq, Arena.heldIn, empty, List.append_nil] at linked
        exact Lends.keeps ⟨frames, lends.root, h.size, h.omitted, h.depth, linked⟩ hr
      · exact ih h.pop

/-- In the end the arena is well linked below its root, which stands for the tree. -/
theorem keeps_finish (ok : g.Consistent) (tokens : List Token) :
    (finish g (fed g tokens)).2.WellLinked [(finish g (fed g tokens)).1] ∧
      (finish g (fed g tokens)).2.Stands (finish g (fed g tokens)).1
        (Parser.finish g (Parser.fed g tokens)).root ∧
      (finish g (fed g tokens)).2.size = (Parser.finish g (Parser.fed g tokens)).nodes := by
  have keeps := keeps_fed ok tokens
  obtain ⟨tree, hp, -⟩ := Parser.leaves_closeAll keeps.whole (Nat.le_refl _)
  have closed : Keeps (ArenaParser.closeAll (fed g tokens).stack.length (fed g tokens))
      (Parser.closeAll (Parser.fed g tokens).stack.length (Parser.fed g tokens)) := by
    rw [keeps.stack.length_eq]
    exact keeps.closeAll
  have stack := closed.outside (by
    by_contra open_
    rw [closed.whole.2 open_] at hp
    cases hp)
  have linked := closed.linked
  have root := closed.root
  rw [hp] at root
  cases hq : (ArenaParser.closeAll (fed g tokens).stack.length (fed g tokens)).root with
  | none =>
    rw [hq] at root
    cases root
  | some i =>
    rw [hq] at root
    rw [held, hq, stack] at linked
    cases root with
    | some stands =>
      unfold finish Parser.finish
      dsimp only
      rw [hq, hp]
      exact ⟨linked, stands, closed.size⟩

end ArenaParser

end Caret

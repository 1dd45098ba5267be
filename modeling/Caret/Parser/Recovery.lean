import Caret.Parser
/-!
# Recovery

When a token has no place, the parser goes back to the innermost frame that can take a new
statement: the source itself, or a block or simple statement that already holds more than one child.
The frames above it are taken off and kept as an error branch, and the token is tried again. If
nothing can be taken off, an opening token of a block is dropped, and any other token becomes an
error leaf.

Results:
* `cut?_cases`: where the stack is cut.
* `cut?_stack`: what is taken off, the frame that stays and the frames below it are the stack.
* `Cut.foldsTo_fold`: what folding a simple statement changes in the frames at a cut.
* `recover_cases`: everything that recovery can do.
-/
namespace Caret.Parser

/-- A stack divided at the frame that can take a new statement. -/
structure Cut where
  /-- The frames to take off, innermost first. -/
  above : List Frame
  container : Frame
  /-- The frames below the container, innermost first. -/
  below : List Frame

/-- A frame that can take a new statement. -/
def takesStatement (f : Frame) : Bool :=
  f.rule.name == "file_input" ||
    ((f.rule.name == "suite" || f.rule.name == "simple_stmt") && 1 < f.children.length)

/-- Divide the stack at the innermost frame that can take a statement, else at the outermost one. -/
def cut? (above : List Frame) : List Frame → Option Cut
  | [] => none
  | f :: below =>
    if takesStatement f || below.isEmpty then some ⟨above.reverse, f, below⟩
    else cut? (f :: above) below

/-- A simple statement is folded into the container two frames further out, so that only what
follows it is taken off. -/
def Cut.fold (c : Cut) : Cut :=
  if c.container.rule.name == "simple_stmt" then
    let folded := Tree.branch c.container.rule.name c.container.children
    let emptied := { c.container with children := [] }
    match c.below with
    | [] => { c with container := emptied.add folded }
    | [outer] => ⟨c.above ++ [emptied], outer.add folded, []⟩
    | inner :: outer :: below => ⟨c.above ++ [emptied, inner], outer.add folded, below⟩
  else c

/-- Branches that folding makes. -/
def Cut.folds (c : Cut) : Nat := if c.container.rule.name == "simple_stmt" then 1 else 0

/-- The frames taken off, outermost first, from the first one with children on. -/
def Cut.removed (c : Cut) : List Frame := c.above.reverse.dropWhile (·.children.isEmpty)

/-- Take a token that has no place. The answer says whether the token should be tried again. -/
def recover (t : Token) (p : Parser) : Bool × Parser :=
  match cut? [] p.stack with
  | none => (false, p)
  | some cut =>
    let p := { p with nodes := p.nodes + cut.folds }
    let cut := cut.fold
    match cut.removed with
    | [] =>
      let p := { p with stack := cut.container :: cut.below }
      if t.kind = .indent then (false, { p with omitted := p.depth :: p.omitted })
      else (false, p.addLeaf ⟨.error t.kind, t.value, t.trivia, t.start⟩)
    | outermost :: rest =>
      let removed := outermost :: rest
      let nodes := removed.flatMap (·.children)
      let broken : BrokenStatement :=
        ⟨removed.map fun f => (f.rule.name, f.children), t.value,
          ((nodes.head?.map Tree.start).getD .start), t.start⟩
      let container := cut.container.add (.branch Tree.errorNode nodes)
      (true, { p with
        stack := container :: cut.below
        nodes := p.nodes + 1
        broken := p.broken ++ [broken] })

/-! ## The cut -/

theorem takesStatement_iff {f : Frame} : takesStatement f = true ↔ f.rule.name = "file_input" ∨
    ((f.rule.name = "suite" ∨ f.rule.name = "simple_stmt") ∧ 1 < f.children.length) := by
  simp [takesStatement]

/-- The stack that a cut divides. -/
def Cut.stack (c : Cut) : List Frame := c.above ++ c.container :: c.below

/-- The stack is cut behind frames that take no statement. -/
theorem cut?_cases {above stack : List Frame} {c : Cut} (h : cut? above stack = some c) :
    ∃ front, c.above = above.reverse ++ front ∧ stack = front ++ c.container :: c.below ∧
      (∀ f ∈ front, takesStatement f = false) ∧
      (takesStatement c.container = true ∨ c.below = []) := by
  induction stack generalizing above with
  | nil => cases h
  | cons f below ih =>
    rw [cut?] at h
    split at h
    · next stops =>
      cases h
      rw [Bool.or_eq_true, List.isEmpty_iff] at stops
      exact ⟨[], (List.append_nil _).symm, rfl, by simp, stops⟩
    · next passed =>
      simp only [Bool.or_eq_true, not_or, Bool.not_eq_true] at passed
      obtain ⟨front, taken, split, none, stops⟩ := ih h
      refine ⟨f :: front, ?_, by rw [split]; rfl, ?_, stops⟩
      · rw [taken, List.reverse_cons, List.append_assoc]
        rfl
      · exact List.forall_mem_cons.2 ⟨passed.1, none⟩

theorem cut?_stack {above stack : List Frame} {c : Cut} (h : cut? above stack = some c) :
    c.stack = above.reverse ++ stack := by
  obtain ⟨front, taken, split, -⟩ := cut?_cases h
  rw [Cut.stack, taken, split, List.append_assoc]

theorem cut?_isSome (above : List Frame) {stack : List Frame} (h : stack ≠ []) :
    ∃ c, cut? above stack = some c := by
  induction stack generalizing above with
  | nil => exact absurd rfl h
  | cons f below ih =>
    rw [cut?]
    split
    · exact ⟨_, rfl⟩
    · next hb => exact ih (f :: above) (by rintro rfl; simp at hb)

/-- The frame that a cut stops at takes a statement or is the outermost one. -/
theorem cut?_container {above stack : List Frame} {c : Cut} (h : cut? above stack = some c) :
    (c.container.rule.name = "file_input" ∨
      ((c.container.rule.name = "suite" ∨ c.container.rule.name = "simple_stmt") ∧
        1 < c.container.children.length)) ∨ c.below = [] := by
  obtain ⟨-, -, -, -, stops⟩ := cut?_cases h
  rwa [takesStatement_iff] at stops

/-- The frames above a cut take no statement. -/
theorem cut?_above {stack : List Frame} {c : Cut} (h : cut? [] stack = some c) :
    ∀ f ∈ c.above, f ∈ stack ∧ takesStatement f = false := by
  obtain ⟨front, taken, split, none, -⟩ := cut?_cases h
  rw [taken, split]
  exact fun f hf => ⟨List.mem_append_left _ hf, none f hf⟩

/-! ## Folding a simple statement -/

/-- The branch of the simple statement that a cut stops at. -/
def Cut.statement (c : Cut) : Tree := .branch c.container.rule.name c.container.children

/-- The frame of the statement without its children. -/
def Cut.emptied (c : Cut) : Frame := { c.container with children := [] }

/-- What folding makes of a cut: a simple statement becomes a child of the frame two further out, or
of the outermost one. -/
inductive Cut.FoldsTo (c : Cut) : Cut → Prop
  | same (other : c.container.rule.name ≠ "simple_stmt") : FoldsTo c c
  | own (simple : c.container.rule.name = "simple_stmt") (hb : c.below = []) :
      FoldsTo c ⟨c.above, c.emptied.add c.statement, []⟩
  | outer {outer : Frame} (simple : c.container.rule.name = "simple_stmt")
      (hb : c.below = [outer]) : FoldsTo c ⟨c.above ++ [c.emptied], outer.add c.statement, []⟩
  | further {inner outer : Frame} {below : List Frame}
      (simple : c.container.rule.name = "simple_stmt") (hb : c.below = inner :: outer :: below) :
      FoldsTo c ⟨c.above ++ [c.emptied, inner], outer.add c.statement, below⟩

theorem Cut.foldsTo_fold (c : Cut) : c.FoldsTo c.fold := by
  unfold fold
  split
  · next simple =>
    rw [beq_iff_eq] at simple
    dsimp only
    split
    · next hb =>
      rw [hb]
      exact .own simple hb
    · next hb => exact .outer simple hb
    · next hb => exact .further simple hb
  · next other => exact .same (by simpa using other)

/-- Nothing but a simple statement is folded. -/
theorem Cut.FoldsTo.eq_self {c d : Cut} (h : c.FoldsTo d)
    (other : c.container.rule.name ≠ "simple_stmt") : d = c := by
  cases h with
  | same => rfl
  | own simple => exact absurd simple other
  | outer simple => exact absurd simple other
  | further simple => exact absurd simple other

/-- Folding makes no other children than a branch of the simple statement. -/
theorem Cut.fold_children {c : Cut} {Q : Tree → Prop} (h : ∀ f ∈ c.stack, ∀ t ∈ f.children, Q t)
    (folded : c.container.rule.name = "simple_stmt" → Q c.statement) :
    ∀ f ∈ c.fold.stack, ∀ t ∈ f.children, Q t := by
  have added {outer : Frame} (held : ∀ t ∈ outer.children, Q t)
      (simple : c.container.rule.name = "simple_stmt") :
      ∀ t ∈ (outer.add c.statement).children, Q t := by
    intro t ht
    rcases List.mem_append.1 ht with ht | ht
    · exact held t ht
    · rw [List.mem_singleton.1 ht]
      exact folded simple
  have none : ∀ t ∈ c.emptied.children, Q t := by simp [emptied]
  have folds := c.foldsTo_fold
  generalize c.fold = d at folds ⊢
  cases folds with
  | same => exact h
  | own simple hb =>
    simp only [Cut.stack, hb, List.mem_append, List.mem_singleton] at h ⊢
    rintro f (hf | rfl)
    · exact h f (.inl hf)
    · exact added none simple
  | @outer outer simple hb =>
    simp only [Cut.stack, hb, List.mem_append, List.mem_cons, List.not_mem_nil, or_false] at h ⊢
    rintro f ((hf | rfl) | rfl)
    · exact h f (.inl hf)
    · exact none
    · exact added (h outer (.inr (.inr rfl))) simple
  | @further inner outer below simple hb =>
    simp only [Cut.stack, hb, List.mem_append, List.mem_cons, List.not_mem_nil, or_false] at h ⊢
    rintro f ((hf | rfl | rfl) | rfl | hf)
    · exact h f (.inl hf)
    · exact none
    · exact h f (.inr (.inr (.inl rfl)))
    · exact added (h outer (.inr (.inr (.inr (.inl rfl))))) simple
    · exact h f (.inr (.inr (.inr (.inr hf))))

/-! ## Recovery -/

/-- The leaf of a token that has no place. -/
def errorLeaf (t : Token) : Leaf := ⟨.error t.kind, t.value, t.trivia, t.start⟩

/-- What recovery keeps of a frame. -/
def record (f : Frame) : String × List Tree := (f.rule.name, f.children)

/-- The statement of these frames, outermost first, that a token sets aside. -/
def setAside (t : Token) (removed : List Frame) : BrokenStatement :=
  ⟨removed.map record, t.value,
    ((removed.flatMap (·.children)).head?.map Tree.start).getD .start, t.start⟩

/-- What recovery makes of a parser whose stack is cut: it drops an opening token, makes an error
leaf, or sets frames aside and asks for another try. -/
inductive RecoversTo (t : Token) (p : Parser) (c : Cut) : Bool → Parser → Prop
  | dropped (none : c.fold.removed = []) (kind : t.kind = .indent) :
      RecoversTo t p c false { p with
        stack := c.fold.container :: c.fold.below
        omitted := p.depth :: p.omitted
        nodes := p.nodes + c.folds }
  | misplaced (none : c.fold.removed = []) (kind : t.kind ≠ .indent) :
      RecoversTo t p c false { p with
        stack := c.fold.container.add (.leaf (errorLeaf t)) :: c.fold.below
        nodes := p.nodes + c.folds + 1 }
  | removed (some : c.fold.removed ≠ []) :
      RecoversTo t p c true { p with
        stack := c.fold.container.add
          (.branch Tree.errorNode (c.fold.removed.flatMap (·.children))) :: c.fold.below
        nodes := p.nodes + c.folds + 1
        broken := p.broken ++ [setAside t c.fold.removed] }

theorem recover_cut {t : Token} {p : Parser} {c : Cut} (h : cut? [] p.stack = some c) :
    RecoversTo t p c (recover t p).1 (recover t p).2 := by
  unfold recover
  rw [h]
  dsimp only
  split
  · next none =>
    split
    · next kind => exact .dropped none kind
    · next kind => exact .misplaced none kind
  · next outermost rest removed =>
    rw [← removed]
    exact .removed (removed ▸ List.cons_ne_nil _ _)

/-- Recovery cuts the stack, if a frame is open. -/
theorem recover_cases {t : Token} {p q : Parser} {again : Bool} (open_ : p.stack ≠ [])
    (h : recover t p = (again, q)) : ∃ c, cut? [] p.stack = some c ∧ RecoversTo t p c again q := by
  obtain ⟨c, hc⟩ := cut?_isSome [] open_
  have recovers := recover_cut (t := t) hc
  rw [h] at recovers
  exact ⟨c, hc, recovers⟩

/-- Without an open frame recovery does nothing. -/
theorem recover_closed {t : Token} {p : Parser} (h : p.stack = []) : recover t p = (false, p) := by
  rw [recover, h]
  rfl

/-- Recovery makes no tree. -/
theorem RecoversTo.root_eq {t : Token} {p q : Parser} {c : Cut} {again : Bool}
    (h : RecoversTo t p c again q) : q.root = p.root := by
  cases h <;> rfl

end Caret.Parser

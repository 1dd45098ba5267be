import Caret.Proofs.Pairing
/-!
# Frames in blocks

A frame is in a block from the shift of the opening token to the shift of the closing token. In
between it does not end, and it has two children at least, a line end and the opening token, so
recovery comes back to it or to a frame above it. So a frame in a block stays until the closing
token is shifted, whatever comes in between.

Results:
* `Grammar.Blocked`: the tables shift opening and closing tokens into and out of blocks only.
* `Filled`: the open frames have the children that their states need.
* `Runs.inside`, `Inside.recover`: what the two parts of feeding do to the frames in blocks.
* `feed_inside`: what feeding a token does to them.
* `Offers.opens`: an opening token that is not dropped leads into a block.
-/
namespace Caret

/-- The opening token of a block was shifted, and the closing token not yet. -/
def RuleTable.inBlock (r : RuleTable) (s : Nat) : Bool := r.name == "suite" && (s == 3 || s == 4)

/-- How many children a frame must have in this state: in a block a line end and the opening token.
-/
def RuleTable.needs (r : RuleTable) (s : Nat) : Nat :=
  if r.name = "suite" then if s = 1 then 1 else if s = 3 ∨ s = 4 then 2 else 0 else 0

/-- Opening and closing tokens lead into and out of blocks, and nothing else does. A frame in a
block does not end. -/
structure Grammar.Blocked (g : Grammar) : Prop where
  goesOn : ∀ {r : RuleTable} {s : Nat}, r ∈ g.rules → r.inBlock s = true → r.accepts s = false
  opens : ∀ {r : RuleTable} {s : Nat} {a : Arc}, r ∈ g.rules → a ∈ r.arcs s →
    g.label? a.label = some (.token .indent) → r.inBlock s = false ∧ r.inBlock a.target = true
  closes : ∀ {r : RuleTable} {s : Nat} {a : Arc}, r ∈ g.rules → a ∈ r.arcs s →
    g.label? a.label = some (.token .dedent) →
      r.inBlock s = true ∧ r.inBlock a.target = false ∧ r.acceptsOnly a.target = true
  keeps : ∀ {r : RuleTable} {s : Nat} {a : Arc}, r ∈ g.rules → a ∈ r.arcs s →
    g.label? a.label ≠ some (.token .indent) → g.label? a.label ≠ some (.token .dedent) →
      r.inBlock a.target = r.inBlock s
  grows : ∀ {r : RuleTable} {s : Nat} {a : Arc}, r ∈ g.rules → a ∈ r.arcs s →
    r.needs a.target ≤ r.needs s + 1 ∧
      (g.isTerminal a.label = false → r.needs a.target ≤ r.needs s)

namespace Parser

variable {g : Grammar} {label target m n : Nat} {t : Token} {p q : Parser} {top : Frame}
  {rest : List Frame} {rule sub : RuleTable} {state : Nat} {spine below : List (RuleTable × Nat)}
  {a : Arc}

/-! ## Frames have the children that their states need -/

/-- The open frames have the children that their states need. -/
def Filled (stack : List Frame) : Prop := ∀ f ∈ stack, f.rule.needs f.state ≤ f.children.length

theorem needs_zero (rule : RuleTable) : rule.needs 0 = 0 := by
  simp [RuleTable.needs]

theorem needs_inBlock (h : rule.inBlock state = true) : rule.needs state = 2 := by
  simp only [RuleTable.inBlock, Bool.and_eq_true, Bool.or_eq_true, beq_iff_eq] at h
  obtain ⟨name, rfl | rfl⟩ := h <;> simp [RuleTable.needs, name]

theorem Filled.tail (h : Filled (top :: rest)) : Filled rest :=
  fun f hf => h f (List.mem_cons_of_mem _ hf)

theorem Filled.add (h : Filled (top :: rest)) (tree : Tree) : Filled (top.add tree :: rest) := by
  intro f hf
  rcases List.mem_cons.1 hf with rfl | hf
  · have := h top List.mem_cons_self
    simp only [Frame.add, List.length_append, List.length_singleton]
    omega
  · exact h.tail f hf

theorem Filled.pop (h : Filled p.stack) : Filled p.pop.stack := by
  cases hs : p.stack with
  | nil =>
    rwa [pop_empty hs]
  | cons top rest =>
    rw [hs] at h
    cases rest with
    | nil =>
      rw [(pop_outermost hs).1]
      exact fun f hf => absurd hf List.not_mem_nil
    | cons lower below =>
      rw [(pop_inner hs).1]
      exact h.tail.add _

theorem Filled.popCompleted {n : Nat} (h : Filled p.stack) : Filled (popCompleted n p).stack :=
  popCompleted_keeps (P := fun q => Filled q.stack) (fun _ _ h => h.pop) h

theorem Filled.runs {r : Outcome × Parser} (blk : g.Blocked) (runs : Runs g label t p r)
    (known : Known g p) (h : Filled p.stack) : Filled r.2.stack := by
  induction runs with
  | complete => exact h
  | @shift p top rest target hs hm =>
    obtain ⟨a, ha, -, rfl⟩ := move?_shift hm
    refine Filled.popCompleted ?_
    rw [(addLeaf_open (moveTo_stack hs)).2]
    rw [hs] at h
    intro f hf
    rcases List.mem_cons.1 hf with rfl | hf
    · have enough := h top List.mem_cons_self
      have grows := (blk.grows (known.innermost hs) ha).1
      simp only [Frame.add, List.length_append, List.length_singleton]
      omega
    · exact h.tail f hf
  | @enter p top rest sub target r hs hm _ ih =>
    obtain ⟨a, ha, enters, -, rfl⟩ := move?_enter hm
    refine ih (known.push hs enters.mem) ?_
    rw [push_stack hs]
    rw [hs] at h
    intro f hf
    rcases List.mem_cons.1 hf with rfl | hf
    · simp [needs_zero]
    · rcases List.mem_cons.1 hf with rfl | hf
      · have enough := h top List.mem_cons_self
        have grows := (blk.grows (known.innermost hs) ha).2 enters.not_terminal
        simp only
        omega
      · exact h.tail f hf
  | last => exact h.pop
  | close _ _ _ _ _ ih => exact ih known.pop h.pop
  | stuck => exact h

/-- The frame that a cut stops at, and those below it, are filled. -/
theorem Filled.fold {c : Cut} (h : Filled p.stack) (hc : cut? [] p.stack = some c) :
    Filled (c.fold.container :: c.fold.below) := by
  have whole : p.stack = c.above ++ c.container :: c.below := (cut?_stack hc).symm
  have kept : Filled (c.container :: c.below) := by
    intro f hf
    exact h f (by rw [whole]; exact List.mem_append_right _ hf)
  have folds := c.foldsTo_fold
  generalize c.fold = d at folds ⊢
  cases folds with
  | same => exact kept
  | own simple hb =>
    intro f hf
    obtain rfl := List.mem_singleton.1 hf
    simp [RuleTable.needs, Frame.add, Cut.emptied, simple]
  | outer _ hb =>
    rw [hb] at kept
    exact kept.tail.add _
  | further _ hb =>
    rw [hb] at kept
    exact kept.tail.tail.add _

theorem Filled.recover {again : Bool} {c : Cut} (h : Filled p.stack)
    (hc : cut? [] p.stack = some c) (recovers : RecoversTo t p c again q) : Filled q.stack := by
  have kept := h.fold hc
  cases recovers with
  | dropped => exact kept
  | misplaced => exact kept.add _
  | removed => exact kept.add _

/-! ## Frames in blocks -/

/-- With `m` frames below it stands a frame in a block, and above it `n` more. -/
def Inside (m n : Nat) (spine : List (RuleTable × Nat)) : Prop :=
  ∃ above f below, spine = above ++ f :: below ∧ below.length = m ∧ f.1.inBlock f.2 = true ∧
    above.countP (fun f => f.1.inBlock f.2) = n

theorem inside_cons : Inside m n ((rule, state) :: below) ↔
    (rule.inBlock state = true ∧ n = 0 ∧ below.length = m) ∨
      ∃ k, Inside m k below ∧ n = if rule.inBlock state then k + 1 else k := by
  constructor
  · rintro ⟨above, f, below', hspine, hm, hf, hn⟩
    cases above with
    | nil =>
      obtain ⟨rfl, rfl⟩ := List.cons.inj hspine
      exact .inl ⟨hf, hn.symm, hm⟩
    | cons f' above =>
      obtain ⟨rfl, rfl⟩ := List.cons.inj hspine
      refine .inr ⟨_, ⟨above, f, below', rfl, hm, hf, rfl⟩, ?_⟩
      rw [← hn, List.countP_cons]
      split <;> simp_all
  · rintro (⟨hf, rfl, hm⟩ | ⟨k, ⟨above, f, below', rfl, hm, hf, rfl⟩, rfl⟩)
    · exact ⟨[], _, below, rfl, hm, hf, rfl⟩
    · refine ⟨(rule, state) :: above, f, below', rfl, hm, hf, ?_⟩
      rw [List.countP_cons]
      split <;> simp_all

/-- A frame on top that is in no block can be taken off. -/
theorem Inside.off (h : Inside m n ((rule, state) :: below)) (out : rule.inBlock state = false) :
    Inside m n below := by
  rcases inside_cons.1 h with ⟨inBlock, -⟩ | ⟨k, inside, rfl⟩
  · rw [out] at inBlock; cases inBlock
  · rwa [out, if_neg Bool.false_ne_true]

/-- A frame that is in no block can be put on top. -/
theorem Inside.on (h : Inside m n below) (out : rule.inBlock state = false) :
    Inside m n ((rule, state) :: below) :=
  inside_cons.2 (.inr ⟨n, h, by rw [out, if_neg Bool.false_ne_true]⟩)

theorem Inside.move (h : Inside m n ((rule, state) :: below))
    (same : rule.inBlock target = rule.inBlock state) : Inside m n ((rule, target) :: below) := by
  rwa [inside_cons, same, ← inside_cons]

/-- A block is opened on top. -/
theorem Inside.opened (h : Inside m n ((rule, state) :: below)) (out : rule.inBlock state = false)
    (into : rule.inBlock target = true) : Inside m (n + 1) ((rule, target) :: below) :=
  inside_cons.2 (.inr ⟨n, h.off out, by rw [into, if_pos rfl]⟩)

/-- A block is closed on top: the lowest one, or one above it. -/
theorem Inside.closed (h : Inside m n ((rule, state) :: below))
    (inBlock : rule.inBlock state = true) (out : rule.inBlock target = false) :
    (n = 0 ∧ below.length = m) ∨ ∃ k, n = k + 1 ∧ Inside m k ((rule, target) :: below) := by
  rcases inside_cons.1 h with ⟨-, hn, hm⟩ | ⟨k, inside, hn⟩
  · exact .inl ⟨hn, hm⟩
  · rw [inBlock, if_pos rfl] at hn
    exact .inr ⟨k, hn, inside.on out⟩

theorem Inside.drop {k : Nat} (h : Inside m n spine)
    (out : ∀ f ∈ spine.take k, f.1.inBlock f.2 = false) : Inside m n (spine.drop k) := by
  induction k generalizing spine with
  | zero => exact h
  | succ k ih =>
    cases spine with
    | nil => exact h
    | cons f spine =>
      rw [List.take_succ_cons, List.forall_mem_cons] at out
      exact ih (h.off out.1) out.2

theorem Inside.lt_length (h : Inside m n spine) : m < spine.length := by
  obtain ⟨above, f, below, rfl, rfl, -⟩ := h
  simp only [List.length_append, List.length_cons]
  omega

/-! ## One token in a block -/

theorem Inside.pop (blk : g.Blocked) (known : Known g p) (hs : p.stack = top :: rest)
    (accepts : top.rule.accepts top.state = true) (h : Inside m n p.spine) :
    Inside m n p.pop.spine := by
  rw [spine_pop, spine_eq hs, List.tail_cons]
  rw [spine_eq hs] at h
  refine h.off ?_
  by_contra inBlock
  rw [blk.goesOn (known.innermost hs) (by simpa using inBlock)] at accepts
  cases accepts

theorem Inside.popCompleted {k : Nat} (blk : g.Blocked) (known : Known g p)
    (h : Inside m n p.spine) : Inside m n (popCompleted k p).spine := by
  refine (popCompleted_keeps (P := fun q => Known g q ∧ Inside m n q.spine)
    (fun hs only h => ?_) ⟨known, h⟩).2
  exact ⟨h.1.pop, h.2.pop blk h.1 hs (accepts_of_acceptsOnly only)⟩

theorem popCompleted_length_le {k : Nat} : (popCompleted k p).stack.length ≤ p.stack.length := by
  refine popCompleted_keeps (P := fun q => q.stack.length ≤ p.stack.length)
    (fun hs _ h => ?_) (Nat.le_refl _)
  rw [hs, List.length_cons] at h
  rw [pop_stack_length hs]
  omega

/-- A frame that can do something else than end stays. -/
theorem popCompleted_eq {k : Nat} (hs : p.stack = top :: rest)
    (more : top.rule.acceptsOnly top.state = false) : popCompleted k p = p := by
  cases k with
  | zero => rfl
  | succ k =>
    rw [popCompleted]
    split
    · rfl
    · next hs' =>
      rw [hs'] at hs
      obtain ⟨rfl, rfl⟩ := List.cons.inj hs
      rw [if_neg (by simp [more])]

/-- A frame that can do nothing but end is closed. -/
theorem popCompleted_length_lt {k : Nat} (hs : p.stack = top :: rest)
    (only : top.rule.acceptsOnly top.state = true) :
    (popCompleted (k + 1) p).stack.length ≤ rest.length := by
  rw [popCompleted]
  split
  · next hn => rw [hn] at hs; cases hs
  · next top' rest' hs' =>
    rw [hs'] at hs
    obtain ⟨rfl, rfl⟩ := List.cons.inj hs
    rw [if_pos only, ← pop_stack_length hs']
    exact popCompleted_length_le

/-- What a token with this label, once shifted, has done to the frames in blocks. -/
def MovesBlocks (g : Grammar) (label m n : Nat) (q : Parser) : Prop :=
  (g.label? label = some (.token .indent) ∧ Inside m (n + 1) q.spine) ∨
    (g.label? label = some (.token .dedent) ∧ ((n = 0 ∧ q.stack.length ≤ m) ∨
      ∃ k, n = k + 1 ∧ Inside m k q.spine)) ∨
    (g.label? label ≠ some (.token .indent) ∧ g.label? label ≠ some (.token .dedent) ∧
      Inside m n q.spine)

theorem Inside.take (blk : g.Blocked) (known : Known g p) (hs : p.stack = top :: rest)
    (ha : a ∈ top.arcs) (h : Inside m n p.spine) :
    MovesBlocks g a.label m n (take g a.label a.target t p) := by
  have hr := known.innermost hs
  have moved : (p.moveTo a.target).stack = { top with state := a.target } :: rest :=
    moveTo_stack hs
  obtain ⟨-, stack⟩ := addLeaf_open (l := leafOf g a.label t) moved
  have spine : ((p.moveTo a.target).addLeaf (leafOf g a.label t)).spine =
      (top.rule, a.target) :: spineOf rest := by rw [spine_addLeaf, spine_moveTo hs]
  have known' : Known g ((p.moveTo a.target).addLeaf (leafOf g a.label t)) := by
    intro f hf
    rw [spine_addLeaf] at hf
    exact known.moveTo hs f hf
  rw [spine_eq hs] at h
  by_cases opens : g.label? a.label = some (.token .indent)
  · obtain ⟨out, into⟩ := blk.opens hr ha opens
    exact .inl ⟨opens, Inside.popCompleted blk known' (by rw [spine]; exact h.opened out into)⟩
  by_cases closes : g.label? a.label = some (.token .dedent)
  · obtain ⟨inBlock, out, only⟩ := blk.closes hr ha closes
    refine .inr (.inl ⟨closes, ?_⟩)
    rcases h.closed inBlock out with ⟨hn, hm⟩ | ⟨k, hn, inside⟩
    · refine .inl ⟨hn, ?_⟩
      rw [Parser.take, stack, List.length_cons]
      refine Nat.le_trans (popCompleted_length_lt stack only) (Nat.le_of_eq ?_)
      rw [← hm, spineOf, List.length_map]
    · exact .inr ⟨k, hn, Inside.popCompleted blk known' (by rw [spine]; exact inside)⟩
  · refine .inr (.inr ⟨opens, closes, Inside.popCompleted blk known' ?_⟩)
    rw [spine]
    exact h.move (blk.keeps hr ha opens closes)

/-- What one token does to the frames in blocks; the start rule does not end before it. -/
theorem Runs.inside {r : Outcome × Parser} (blk : g.Blocked) (h : Runs g label t p r)
    (known : Known g p) (inside : Inside m n p.spine) :
    (r.1 = .stuck ∧ Inside m n r.2.spine) ∨
      ((∃ done, r.1 = .shifted done) ∧ MovesBlocks g label m n r.2) := by
  induction h with
  | complete h =>
    have := inside.lt_length
    rw [← stack_length, h] at this
    exact absurd this (Nat.not_lt_zero _)
  | shift hs hm =>
    obtain ⟨a, ha, rfl, rfl⟩ := move?_shift hm
    exact .inr ⟨⟨_, rfl⟩, inside.take blk known hs ha⟩
  | enter hs hm _ ih =>
    obtain ⟨a, ha, enters, -, rfl⟩ := move?_enter hm
    refine ih (known.push hs enters.mem) ?_
    rw [spine_push hs]
    rw [spine_eq hs] at inside
    have fresh {sub : RuleTable} : sub.inBlock 0 = false := by simp [RuleTable.inBlock]
    obtain ⟨j, hj, -⟩ := enters
    have same := blk.keeps (known.innermost hs) ha (by simp [hj]) (by simp [hj])
    exact (inside.move same).on fresh
  | last hs _ accepts =>
    have := (inside.pop blk known hs accepts).lt_length
    rw [spine_pop, spine_eq hs] at this
    exact absurd this (Nat.not_lt_zero _)
  | close hs _ _ accepts _ ih => exact ih known.pop (inside.pop blk known hs accepts)
  | stuck => exact .inl ⟨rfl, inside⟩

/-- An opening token leads into a block. -/
theorem Runs.opens {r : Outcome × Parser} (blk : g.Blocked) (h : Runs g label t p r)
    (known : Known g p) (opening : g.label? label = some (.token .indent)) {done : Bool}
    (hr : r.1 = .shifted done) :
    ∃ f below, r.2.stack = f :: below ∧ f.rule.inBlock f.state = true := by
  induction h with
  | @shift p top rest target hs hm =>
    obtain ⟨a, ha, rfl, rfl⟩ := move?_shift hm
    have hr := known.innermost hs
    obtain ⟨-, into⟩ := blk.opens hr ha opening
    have moved : (p.moveTo a.target).stack = { top with state := a.target } :: rest :=
      moveTo_stack hs
    obtain ⟨-, stack⟩ := addLeaf_open (l := leafOf g a.label t) moved
    have more : top.rule.acceptsOnly a.target = false := by
      by_contra only
      have := accepts_of_acceptsOnly (by simpa using only)
      rw [blk.goesOn hr into] at this
      cases this
    rw [Parser.take, popCompleted_eq stack more]
    exact ⟨_, _, stack, into⟩
  | enter hs hm _ ih =>
    obtain ⟨a, -, enters, -, rfl⟩ := move?_enter hm
    exact ih (known.push hs enters.mem) hr
  | close _ _ _ _ _ ih => exact ih known.pop hr
  | complete => cases hr
  | last => cases hr
  | stuck => cases hr

/-! ## Recovery in a block -/

/-- A frame in a block takes statements, as it has the line end and the opening token. -/
theorem takesStatement_of_inBlock {f : Frame} (enough : f.rule.needs f.state ≤ f.children.length)
    (inBlock : f.rule.inBlock f.state = true) : takesStatement f = true := by
  rw [needs_inBlock inBlock] at enough
  simp only [RuleTable.inBlock, Bool.and_eq_true, beq_iff_eq] at inBlock
  exact takesStatement_iff.2 (.inr ⟨.inl inBlock.1, enough⟩)

/-- Recovery takes no frame off that is in a block. -/
theorem Filled.above {c : Cut} (h : Filled p.stack) (hc : cut? [] p.stack = some c)
    (alone : c.Alone) : ∀ f ∈ c.fold.above, f.rule.inBlock f.state = false := by
  have whole : p.stack = c.above ++ c.container :: c.below := (cut?_stack hc).symm
  have out : ∀ f ∈ c.above, f.rule.inBlock f.state = false := by
    intro f hf
    obtain ⟨hf, takes⟩ := cut?_above hc f hf
    by_contra inBlock
    rw [takesStatement_of_inBlock (h f hf) (by simpa using inBlock)] at takes
    cases takes
  have emptied (simple : c.container.rule.name = "simple_stmt") :
      c.emptied.rule.inBlock c.emptied.state = false := by
    simp [RuleTable.inBlock, Cut.emptied, simple]
  have folds := c.foldsTo_fold
  generalize c.fold = d at folds ⊢
  cases folds with
  | same => exact out
  | own => exact out
  | outer simple =>
    intro f hf
    rcases List.mem_append.1 hf with hf | hf
    · exact out f hf
    · rw [List.mem_singleton.1 hf]
      exact emptied simple
  | @further inner outer below simple hb =>
    have empty := alone simple hb
    have enough := h inner (by rw [whole, hb]; simp)
    intro f hf
    rcases List.mem_append.1 hf with hf | hf
    · exact out f hf
    · rcases List.mem_cons.1 hf with rfl | hf
      · exact emptied simple
      · rw [List.mem_singleton.1 hf]
        by_contra inBlock
        rw [needs_inBlock (by simpa using inBlock), empty] at enough
        cases enough

theorem Inside.recover {again : Bool} {c : Cut} (h : Inside m n p.spine) (filled : Filled p.stack)
    (hc : cut? [] p.stack = some c) (alone : c.Alone) (recovers : RecoversTo t p c again q) :
    Inside m n q.spine := by
  have left : (spineOf c.fold.above ++ q.spine).drop (spineOf c.fold.above).length = q.spine :=
    List.drop_left
  rw [← recovers.spine_append hc] at left
  rw [← left]
  refine h.drop fun f hf => ?_
  rw [recovers.spine_append hc, List.take_left] at hf
  obtain ⟨f', hf', rfl⟩ := List.mem_map.1 hf
  exact filled.above hc alone f' hf'

/-! ## Feeding a token in a block -/

/-- A state that tokens can be fed to, with the children that the states of its frames need. -/
structure Steady (g : Grammar) (p : Parser) : Prop extends Ready g p where
  filled : Filled p.stack

theorem Steady.stuck (ok : g.Consistent) (lay : g.Layered) (blk : g.Blocked) (h : Steady g p)
    (hs : shift g t p = (.stuck, q)) : Steady g q := by
  refine ⟨(h.toReady.stuck ok lay hs).1, ?_⟩
  rcases shift_cases ok h.known hs with ⟨-, -, rfl⟩ | ⟨label, -, runs⟩
  · exact h.filled
  · exact Filled.runs blk runs h.known h.filled

theorem Steady.recover {again : Bool} (lay : g.Layered) (h : Steady g p)
    (hr : recover t p = (again, q)) : Steady g q := by
  obtain ⟨ready, -⟩ := h.toReady.recover lay hr
  obtain ⟨c, hc, recovers⟩ := recover_cases h.orderly.ne_nil hr
  exact ⟨ready, h.filled.recover hc recovers⟩

/-- A token that is stuck leaves the frames in blocks as they are. -/
theorem Inside.stuck (ok : g.Consistent) (blk : g.Blocked) (known : Known g p)
    (h : Inside m n p.spine) (hs : shift g t p = (.stuck, q)) : Inside m n q.spine := by
  rcases shift_cases ok known hs with ⟨-, -, rfl⟩ | ⟨label, -, runs⟩
  · exact h
  · rcases runs.inside blk known h with ⟨-, inside⟩ | ⟨⟨done, impossible⟩, -⟩
    · exact inside
    · cases impossible

/-- So does recovery. -/
theorem Inside.recovered {again : Bool} (steady : Steady g p) (h : Inside m n p.spine)
    (hr : Parser.recover t p = (again, q)) : Inside m n q.spine := by
  obtain ⟨c, hc, recovers⟩ := recover_cases steady.orderly.ne_nil hr
  exact h.recover steady.filled hc (steady.orderly.alone hc) recovers

/-- What a token that is offered has done to the frames in blocks: it was shifted, or dropped or
made an error leaf. -/
theorem Offers.inside {r : Except ParseError Bool × Parser} (ok : g.Consistent) (lay : g.Layered)
    (blk : g.Blocked) (h : Offers g t p r) (steady : Steady g p) (inside : Inside m n p.spine) :
    (∃ label, classify g t = some label ∧ r.2.leaves = p.leaves ++ [leafOf g label t] ∧
        MovesBlocks g label m n r.2) ∨
      (Inside m n r.2.spine ∧ (t.kind = .indent ∧ r.2.leaves = p.leaves ∨
        t.kind ≠ .indent ∧ r.2.leaves = p.leaves ++ [errorLeaf t])) := by
  rcases h.fate (P := fun q => Steady g q ∧ Inside m n q.spine) ok lay steady.toReady
    (fun h hs => ⟨h.1.stuck ok lay blk hs, h.2.stuck ok blk h.1.known hs⟩)
    (fun h hr => ⟨h.1.recover lay hr, h.2.recovered h.1 hr⟩) ⟨steady, inside⟩
    with ⟨q, label, done, ready, kept, same, -, hl, runs, -⟩ | ⟨-, -, kept, fate⟩
  · obtain ⟨-, leaves, -⟩ := runs.leaves_eq ready.whole
    rcases runs.inside blk ready.known kept.2 with ⟨impossible, -⟩ | ⟨-, moves⟩
    · cases impossible
    · exact .inl ⟨label, hl, by rw [leaves ⟨_, rfl⟩, same], moves⟩
  · refine .inr ⟨kept.2, ?_⟩
    rcases fate with ⟨kind, same, -⟩ | ⟨kind, made, -⟩
    · exact .inl ⟨kind, same⟩
    · exact .inr ⟨kind, made⟩

theorem Offers.filled {r : Except ParseError Bool × Parser} (ok : g.Consistent) (lay : g.Layered)
    (blk : g.Blocked) (h : Offers g t p r) (steady : Steady g p) : Filled r.2.stack := by
  rcases h.fate (P := Steady g) ok lay steady.toReady (fun h hs => h.stuck ok lay blk hs)
    (fun h hr => h.recover lay hr) steady
    with ⟨q, label, done, -, kept, -, -, -, runs, -⟩ | ⟨-, -, kept, -⟩
  · exact Filled.runs blk runs kept.known kept.filled
  · exact kept.filled

theorem Steady.count (h : Steady g p) (kind : TokenKind) : Steady g (p.count kind) :=
  ⟨h.toReady.count kind, by rw [stack_count]; exact h.filled⟩

theorem Steady.feed (ok : g.Consistent) (lay : g.Layered) (blk : g.Blocked) (h : Steady g p)
    (hk : t.kind ≠ .endMarker) : Steady g (feed g t p).2 := by
  obtain ⟨-, goesOn, -⟩ := feed_lossless (t := t) ok lay h.toReady
  refine ⟨(goesOn hk).2, ?_⟩
  rcases feed_cases ok h.known (t := t) with ⟨-, hf⟩ | ⟨-, offers⟩
  · rw [hf]
    exact h.filled
  · exact offers.filled ok lay blk (h.count t.kind)

/-- A token that is no name has its type as its label. -/
theorem classify_token (h : classify g t = some label) (hk : t.kind ≠ .name) :
    g.label? label = some (.token t.kind) := by
  rw [classify, if_neg hk, Option.none_or] at h
  exact Grammar.label?_of_idxOf? h

/-- What feeding a token does to the frames in blocks. A closing token that is neither dropped nor
made an error leaf closes the innermost block that a frame is in. -/
theorem feed_inside (ok : g.Consistent) (lay : g.Layered) (blk : g.Blocked) (steady : Steady g p)
    (inside : Inside m n p.spine) :
    (t.kind = .indent →
      (drops g p t = false ∧ Inside m (n + 1) (feed g t p).2.spine) ∨
      (drops g p t = true ∧ Inside m n (feed g t p).2.spine)) ∧
    (t.kind = .dedent →
      (drops g p t = true ∧ Inside m n (feed g t p).2.spine) ∨
      (drops g p t = false ∧ ((feed g t p).2.leaves = p.leaves ++ [errorLeaf t] ∨
        (n = 0 ∧ (feed g t p).2.stack.length ≤ m) ∨
          ∃ k, n = k + 1 ∧ Inside m k (feed g t p).2.spine))) ∧
    (t.kind ≠ .indent → t.kind ≠ .dedent → Inside m n (feed g t p).2.spine) := by
  have kept {q : Parser} (h : q.leaves = p.leaves) : (q.leaves == p.leaves) = true := beq_iff_eq.2 h
  have made {q : Parser} {l : Leaf} (h : q.leaves = p.leaves ++ [l]) :
      (q.leaves == p.leaves) = false := by rw [beq_eq_false_iff_ne, h]; simp
  rcases feed_cases ok steady.known (t := t) with ⟨closes, hf⟩ | ⟨-, offers⟩
  · have kind : t.kind = .dedent := by
      rw [closesOmitted, Bool.and_eq_true, beq_iff_eq] at closes
      exact closes.1
    have same : Inside m n (feed g t p).2.spine := by rw [hf]; exact inside
    refine ⟨fun opens => ?_, fun _ => .inl ⟨by rw [drops, hf]; exact kept rfl, same⟩,
      fun _ _ => same⟩
    rw [kind] at opens
    cases opens
  · have outcome := offers.inside ok lay blk (steady.count t.kind) (by rwa [spine_count])
    rw [leaves_count] at outcome
    rcases outcome with ⟨label, hl, leaves, moves⟩ | ⟨inside', fate⟩
    · refine ⟨fun opens => ?_, fun closes => ?_, fun noIndent noDedent => ?_⟩
      · have token := classify_token hl (by simp [opens])
        rw [opens] at token
        rcases moves with ⟨-, inside'⟩ | ⟨other, -⟩ | ⟨other, -⟩
        · exact .inl ⟨made leaves, inside'⟩
        · rw [token] at other; cases other
        · exact absurd token other
      · have token := classify_token hl (by simp [closes])
        rw [closes] at token
        rcases moves with ⟨other, -⟩ | ⟨-, closed⟩ | ⟨-, other, -⟩
        · rw [token] at other; cases other
        · exact .inr ⟨made leaves, .inr closed⟩
        · exact absurd token other
      · have token {kind : TokenKind} (h : g.label? label = some (.token kind)) :
            t.kind = kind := by
          rcases classify_label hl with ⟨k, hk⟩ | hk <;> rw [h] at hk <;> cases hk
          rfl
        rcases moves with ⟨other, -⟩ | ⟨other, -⟩ | ⟨-, -, inside'⟩
        · exact absurd (token other) noIndent
        · exact absurd (token other) noDedent
        · exact inside'
    · refine ⟨fun opens => ?_, fun closes => ?_, fun _ _ => inside'⟩
      · rcases fate with ⟨-, leaves⟩ | ⟨other, -⟩
        · exact .inr ⟨kept leaves, inside'⟩
        · exact absurd opens other
      · rcases fate with ⟨other, -⟩ | ⟨-, leaves⟩
        · rw [closes] at other; cases other
        · exact .inr ⟨made leaves, .inl leaves⟩

/-! ## Entering a block -/

/-- An opening token that is not dropped leads into a block. -/
theorem Offers.opens {r : Except ParseError Bool × Parser} (ok : g.Consistent) (lay : g.Layered)
    (blk : g.Blocked) (h : Offers g t p r) (ready : Ready g p) (opens : t.kind = .indent)
    (kept : r.2.leaves ≠ p.leaves) :
    ∃ f below, r.2.stack = f :: below ∧ f.rule.inBlock f.state = true := by
  rcases h.fate (P := fun _ => True) ok lay ready (fun _ _ => trivial) (fun _ _ => trivial) trivial
    with ⟨q, label, done, ready', -, -, -, hl, runs, -⟩ | ⟨-, -, -, ⟨-, same, -⟩ | ⟨other, -⟩⟩
  · have token := classify_token hl (by simp [opens])
    rw [opens] at token
    exact runs.opens blk ready'.known token rfl
  · exact absurd same kept
  · exact absurd opens other

end Parser

namespace Grammar

theorem python_blocked : pythonTables.Blocked := by
  have stays : ∀ r ∈ pythonTables.rules.toList, ∀ s ∈ [3, 4], r.inBlock s = true →
      r.accepts s = false := by
    decide +kernel
  have layout : ∀ r ∈ pythonTables.rules.toList, ∀ s < r.states.size, ∀ a ∈ r.arcs s,
      (pythonTables.label? a.label = some (.token .indent) →
        r.inBlock s = false ∧ r.inBlock a.target = true) ∧
      (pythonTables.label? a.label = some (.token .dedent) →
        r.inBlock s = true ∧ r.inBlock a.target = false ∧ r.acceptsOnly a.target = true) := by
    decide +kernel
  have others : ∀ r ∈ pythonTables.rules.toList, ∀ s < r.states.size, ∀ a ∈ r.arcs s,
      pythonTables.label? a.label ≠ some (.token .indent) →
      pythonTables.label? a.label ≠ some (.token .dedent) →
        r.inBlock a.target = r.inBlock s := by
    decide +kernel
  have growth : ∀ r ∈ pythonTables.rules.toList, ∀ s < r.states.size, ∀ a ∈ r.arcs s,
      r.needs a.target ≤ r.needs s + 1 ∧
        (pythonTables.isTerminal a.label = false → r.needs a.target ≤ r.needs s) := by
    decide +kernel
  -- the checks are for listed rules and states, and a state with arcs is listed
  have listed {P : RuleTable → Nat → Arc → Prop}
      (check : ∀ r ∈ pythonTables.rules.toList, ∀ s < r.states.size, ∀ a ∈ r.arcs s, P r s a)
      {r : RuleTable} {s : Nat} {a : Arc} (hr : r ∈ pythonTables.rules) (ha : a ∈ r.arcs s) :
      P r s a :=
    check r (Array.mem_toList_iff.2 hr) s (lt_size_of_mem_arcs ha) a ha
  refine ⟨fun {r s} hr inBlock => ?_, fun hr ha => (listed layout hr ha).1,
    fun hr ha => (listed layout hr ha).2, listed others, listed growth⟩
  refine stays r (Array.mem_toList_iff.2 hr) s ?_ inBlock
  simp only [RuleTable.inBlock, Bool.and_eq_true, Bool.or_eq_true, beq_iff_eq] at inBlock
  simpa using inBlock.2

end Grammar

end Caret

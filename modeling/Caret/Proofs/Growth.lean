import Caret.Proofs.Clean
/-!
# How trees grow in a parse without recovery

Without recovery the children of a frame take its rule from the first state to the present one. Each
of them is the leaf of a token, or the closed frame of a rule that was entered for a token, the
first one that the child holds. `Built` says so and remembers of each rule which open frames it was
entered on.

Results:
* `Through`: the frames that a token finds on its way, entering and closing rules.
* `Built`: children that take a rule from its first state to another.
* `Built.leaves`: their leaves are those of the tokens that they are built of.
* `Built.labels`, `Built.names`: what the tables say of rules holds of what is built by them.
* `Standing`: what holds of the open frames, and is kept by every token that is shifted.
* `clean_built`, `clean_grown`: without recovery the tree of a source is built of all its tokens.
-/
namespace Caret.Parser

variable {g : Grammar} {T : List Token} {label : Nat} {t : Token} {p q : Parser} {top : Frame}
  {rest : List Frame} {rule sub r : RuleTable} {state s s' i j k : Nat} {a : Arc}
  {spine spine' below : List (RuleTable × Nat)} {ts us : List Tree}

/-! ## The way of a token -/

/-- With a token of this label, entering and closing rules leads from the one spine to the other. -/
inductive Through (g : Grammar) (label : Nat) :
    List (RuleTable × Nat) → List (RuleTable × Nat) → Prop
  | refl (spine : List (RuleTable × Nat)) : Through g label spine spine
  | enter {rule sub : RuleTable} {state target : Nat} {below spine : List (RuleTable × Nat)}
      (h : move? g label (rule.arcs state) = some (.enter sub target))
      (next : Through g label ((sub, 0) :: (rule, target) :: below) spine) :
      Through g label ((rule, state) :: below) spine
  | close {rule : RuleTable} {state : Nat} {below spine : List (RuleTable × Nat)}
      (h : move? g label (rule.arcs state) = none) (h' : rule.accepts state = true)
      (next : Through g label below spine) : Through g label ((rule, state) :: below) spine

theorem Through.trans {spine'' : List (RuleTable × Nat)} (h : Through g label spine spine')
    (h' : Through g label spine' spine'') : Through g label spine spine'' := by
  induction h with
  | refl => exact h'
  | enter hm _ ih => exact .enter hm (ih h')
  | close hm accepts _ ih => exact .close hm accepts (ih h')

/-- The innermost frame of a spine. -/
theorem spine_top (hs : p.stack = top :: rest) (hp : p.spine = (rule, state) :: below) :
    top.rule = rule ∧ top.state = state ∧ spineOf rest = below := by
  rw [spine_eq hs] at hp
  obtain ⟨same, tail⟩ := List.cons.inj hp
  obtain ⟨rfl, rfl⟩ := Prod.mk.inj same
  exact ⟨rfl, rfl, tail⟩

/-- Where the innermost frame shifts, the token is shifted. -/
theorem Runs.of_shift {x : Outcome × Parser} {target : Nat} (runs : Runs g label t p x)
    (hp : p.spine = (rule, state) :: below)
    (hm : move? g label (rule.arcs state) = some (.shift target)) :
    x = (.shifted (take g label target t p).isDone, take g label target t p) := by
  cases runs with
  | complete empty => rw [spine, empty] at hp; cases hp
  | shift hs hm' =>
    obtain ⟨rfl, rfl, -⟩ := spine_top hs hp
    rw [Frame.arcs, hm] at hm'
    cases hm'
    rfl
  | enter hs hm' | last hs hm' | close hs _ hm' | stuck hs hm' =>
    obtain ⟨rfl, rfl, -⟩ := spine_top hs hp
    rw [Frame.arcs, hm] at hm'
    cases hm'

/-- Where the innermost frame enters a rule, the token goes on there. -/
theorem Runs.of_enter {x : Outcome × Parser} {target : Nat} (runs : Runs g label t p x)
    (hp : p.spine = (rule, state) :: below)
    (hm : move? g label (rule.arcs state) = some (.enter sub target)) :
    Runs g label t (p.push sub target) x ∧
      (p.push sub target).spine = (sub, 0) :: (rule, target) :: below := by
  cases runs with
  | complete empty => rw [spine, empty] at hp; cases hp
  | enter hs hm' next =>
    obtain ⟨rfl, rfl, tail⟩ := spine_top hs hp
    rw [Frame.arcs, hm] at hm'
    cases hm'
    exact ⟨next, by rw [spine_push hs, tail]⟩
  | shift hs hm' | last hs hm' | close hs _ hm' | stuck hs hm' =>
    obtain ⟨rfl, rfl, -⟩ := spine_top hs hp
    rw [Frame.arcs, hm] at hm'
    cases hm'

/-- Where the innermost frame has to end, the token goes on below. -/
theorem Runs.of_close {x : Outcome × Parser} (runs : Runs g label t p x)
    (hp : p.spine = (rule, state) :: below) (hm : move? g label (rule.arcs state) = none)
    (ends : rule.accepts state = true) (bottom : below ≠ []) :
    Runs g label t p.pop x ∧ p.pop.spine = below := by
  cases runs with
  | complete empty => rw [spine, empty] at hp; cases hp
  | close hs _ hm' _ next => exact ⟨next, by rw [spine_pop, hp, List.tail_cons]⟩
  | last hs =>
    obtain ⟨-, -, tail⟩ := spine_top hs hp
    exact absurd tail.symm bottom
  | shift hs hm' | enter hs hm' =>
    obtain ⟨rfl, rfl, -⟩ := spine_top hs hp
    rw [Frame.arcs, hm] at hm'
    cases hm'
  | stuck hs _ refuses =>
    obtain ⟨rfl, rfl, -⟩ := spine_top hs hp
    rw [ends] at refuses
    cases refuses

/-- What becomes of a token is what becomes of it further on its way. -/
theorem Through.runs {x : Outcome × Parser} (h : Through g label spine spine')
    (runs : Runs g label t p x) (hp : p.spine = spine) (open_ : spine' ≠ []) :
    ∃ p', p'.spine = spine' ∧ Runs g label t p' x := by
  induction h generalizing p with
  | refl => exact ⟨p, hp, runs⟩
  | enter hm _ ih =>
    obtain ⟨next, hp'⟩ := runs.of_enter hp hm
    exact ih next hp' open_
  | @close rule state below spine hm accepts next ih =>
    have bottom : below ≠ [] := by
      intro empty
      subst empty
      cases next
      exact open_ rfl
    obtain ⟨next, hp'⟩ := runs.of_close hp hm accepts bottom
    exact ih next hp' open_

/-- The token with this number finds these frames on its way. -/
def Passes (g : Grammar) (T : List Token) (k : Nat) (spine : List (RuleTable × Nat)) : Prop :=
  ∃ t label, T[k]? = some t ∧ classify g t = some label ∧
    Through g label (fed g (T.take k)).spine spine

/-! ## Children -/

/-- The children take a rule from its first state to another, and their leaves are those of the
tokens from one number up to another. A child is the leaf of a token, or the closed frame of a rule
that was entered for its first token. -/
inductive Built (g : Grammar) (T : List Token) : RuleTable → Nat → Nat → Nat → List Tree → Prop
  | start (r : RuleTable) (k : Nat) : Built g T r 0 k k []
  | leaf {r : RuleTable} {s i j : Nat} {ts : List Tree} {a : Arc} {t : Token}
      (h : Built g T r s i j ts) (ha : a ∈ r.arcs s) (token : T[j]? = some t)
      (class_ : classify g t = some a.label) :
      Built g T r a.target i (j + 1) (ts ++ [.leaf (leafOf g a.label t)])
  | node {r sub : RuleTable} {s s' i j k : Nat} {ts us : List Tree} {a : Arc}
      {below : List (RuleTable × Nat)} (h : Built g T r s i j ts) (ha : a ∈ r.arcs s)
      (enters : g.Enters a sub) (passes : Passes g T j ((sub, 0) :: (r, a.target) :: below))
      (inner : Built g T sub s' j k us) (ends : sub.accepts s' = true) :
      Built g T r a.target i k (ts ++ [Frame.close ⟨sub, s', us⟩])

/-- The tokens from one number up to another, in two parts. -/
theorem slice_append (h : i ≤ j) (h' : j ≤ k) :
    (T.take k).drop i = (T.take j).drop i ++ (T.take k).drop j := by
  have front : (T.take j).drop i = ((T.take k).drop i).take (j - i) := by
    rw [List.drop_take, List.drop_take, List.take_take]
    congr 1
    omega
  have back : (T.take k).drop j = ((T.take k).drop i).drop (j - i) := by
    rw [List.drop_drop]
    congr 1
    omega
  rw [front, back, List.take_append_drop]

theorem take_slice (h : i ≤ j) : T.take j = T.take i ++ (T.take j).drop i := by
  simpa using slice_append (Nat.zero_le i) h

theorem slice_cons (h : T[i]? = some t) (lt : i < j) :
    (T.take j).drop i = t :: (T.take j).drop (i + 1) := by
  rw [List.drop_eq_getElem?_toList_append, List.getElem?_take_of_lt lt, h]
  rfl

/-- A token from one number up to another. -/
theorem mem_slice (h : t ∈ (T.take j).drop i) : ∃ n, i ≤ n ∧ n < j ∧ T[n]? = some t := by
  obtain ⟨m, hm⟩ := List.getElem?_of_mem h
  rw [List.getElem?_drop, List.getElem?_take] at hm
  split at hm
  · next upTo => exact ⟨i + m, Nat.le_add_right i m, upTo, hm⟩
  · cases hm

/-- The leaf of a token that is shifted. -/
def tokenLeaf (g : Grammar) (t : Token) : Leaf := leafOf g ((classify g t).getD 0) t

/-- The leaves of built children are those of the tokens that they are built of. -/
theorem Built.leaves (h : Built g T r s i j ts) :
    i ≤ j ∧ ts.flatMap Tree.leaves = ((T.take j).drop i).map (tokenLeaf g) := by
  induction h with
  | start r k => simp
  | @leaf r s i j ts a t h ha token class_ ih =>
    obtain ⟨le, leaves⟩ := ih
    have here : (T.take (j + 1)).drop j = [t] := by
      rw [List.drop_take, Nat.add_sub_cancel_left, List.take_one, List.head?_drop, token]
      rfl
    refine ⟨by omega, ?_⟩
    rw [List.flatMap_append, leaves, slice_append le (Nat.le_succ j), here]
    simp [tokenLeaf, class_]
  | node h ha enters passes inner ends ih ih' =>
    obtain ⟨le, leaves⟩ := ih
    obtain ⟨le', leaves'⟩ := ih'
    refine ⟨by omega, ?_⟩
    rw [List.flatMap_append, leaves, slice_append le le', List.map_append, ← leaves']
    simp [Frame.leaves]

/-- What holds of the labels that a rule takes, it and all rules inside, holds of the tokens that
its children are built of. -/
theorem Built.labels {P : String → Prop} {Q : Nat → Prop}
    (takes : ∀ {r : RuleTable} {s : Nat} {a : Arc}, r ∈ g.rules → a ∈ r.arcs s → P r.name →
      g.isTerminal a.label = true → Q a.label)
    (enter : ∀ {r sub : RuleTable} {s : Nat} {a : Arc}, r ∈ g.rules → a ∈ r.arcs s →
      g.Enters a sub → P r.name → P sub.name)
    (h : Built g T r s i j ts) (known : r ∈ g.rules) (hr : P r.name) :
    ∀ n, i ≤ n → n < j → ∃ t label, T[n]? = some t ∧ classify g t = some label ∧ Q label := by
  induction h with
  | start => intro n _ _; omega
  | @leaf r s i j ts a t h ha token class_ ih =>
    intro n from_ upTo
    by_cases last : n = j
    · subst last
      exact ⟨t, a.label, token, class_, takes known ha hr (classify_terminal class_)⟩
    · exact ih known hr n from_ (by omega)
  | @node r sub s s' i j k ts us a below h ha enters passes inner ends ih ih' =>
    intro n from_ upTo
    by_cases earlier : n < j
    · exact ih known hr n from_ earlier
    · exact ih' enters.mem (enter known ha enters hr) n (by omega) upTo

/-- What holds of the rules entered from a rule, and of those entered from them, holds of the names
of the branches among the children. -/
theorem Built.names {P Q : String → Prop} (weaker : ∀ {name : String}, P name → Q name)
    (enter : ∀ {r sub : RuleTable} {s : Nat} {a : Arc}, r ∈ g.rules → a ∈ r.arcs s →
      g.Enters a sub → Q r.name → P sub.name)
    (h : Built g T r s i j ts) (known : r ∈ g.rules) (hr : Q r.name) {name : String}
    (hc : .branch name us ∈ ts) : P name := by
  induction h generalizing us with
  | start => cases hc
  | leaf h ha token class_ ih =>
    rcases List.mem_append.1 hc with hc | hc
    · exact ih known hr hc
    · cases List.mem_singleton.1 hc
  | @node r sub s s' i j k ts children a below h ha enters passes inner ends ih ih' =>
    rcases List.mem_append.1 hc with hc | hc
    · exact ih known hr hc
    have entered := enter known ha enters hr
    have closed := List.mem_singleton.1 hc
    rcases Frame.close_cases ⟨sub, s', children⟩ with ⟨only, single, -, same⟩ | ⟨same, -⟩ <;>
      rw [same] at closed
    · have single : children = [only] := single
      have member : .branch name us ∈ children := by
        rw [single, closed]
        exact List.mem_singleton_self _
      exact ih' enters.mem (weaker entered) member
    · cases closed
      exact entered

/-- A branch is the closed frame of a rule, and not one that a single child stands for. -/
def Grown (g : Grammar) (T : List Token) (t : Tree) : Prop :=
  ∀ name us, t = .branch name us → ∃ r s i j, r ∈ g.rules ∧ r.name = name ∧
    Built g T r s i j us ∧ r.accepts s = true ∧
    (us.length = 1 → name ∈ Frame.keepsSingleChild)

theorem grown_close (known : r ∈ g.rules) (built : Built g T r s i j ts)
    (ends : r.accepts s = true) (inner : ∀ c ∈ ts, Grown g T c) :
    Grown g T (Frame.close ⟨r, s, ts⟩) := by
  intro name us closed
  rcases Frame.close_cases ⟨r, s, ts⟩ with ⟨only, single, -, same⟩ | ⟨same, kept⟩ <;>
    rw [same] at closed
  · have single : ts = [only] := single
    exact inner only (by rw [single]; exact List.mem_singleton_self _) name us closed
  · cases closed
    exact ⟨r, s, i, j, known, rfl, built, ends, kept⟩

theorem Built.grown (h : Built g T r s i j ts) : ∀ c ∈ ts, Grown g T c := by
  induction h with
  | start => intro c hc; cases hc
  | leaf h ha token class_ ih =>
    intro c hc
    rcases List.mem_append.1 hc with hc | hc
    · exact ih c hc
    · intro name us branch
      rw [List.mem_singleton.1 hc] at branch
      cases branch
  | node h ha enters passes inner ends ih ih' =>
    intro c hc
    rcases List.mem_append.1 hc with hc | hc
    · exact ih c hc
    · rw [List.mem_singleton.1 hc]
      exact grown_close enters.mem inner ends ih'

/-- A child is the leaf of a token, or the closed frame of a rule that was entered on this one. -/
theorem Built.child {c : Tree} (h : Built g T r s i j ts) (hc : c ∈ ts) :
    (∃ s a t, a ∈ r.arcs s ∧ classify g t = some a.label ∧ c = .leaf (leafOf g a.label t)) ∨
      ∃ s a sub s' m n us below, a ∈ r.arcs s ∧ g.Enters a sub ∧
        Passes g T m ((sub, 0) :: (r, a.target) :: below) ∧ Built g T sub s' m n us ∧
        sub.accepts s' = true ∧ c = Frame.close ⟨sub, s', us⟩ := by
  induction h with
  | start => cases hc
  | leaf h ha token class_ ih =>
    rcases List.mem_append.1 hc with hc | hc
    · exact ih hc
    · exact .inl ⟨_, _, _, ha, class_, List.mem_singleton.1 hc⟩
  | node h ha enters passes inner ends ih ih' =>
    rcases List.mem_append.1 hc with hc | hc
    · exact ih hc
    · exact .inr ⟨_, _, _, _, _, _, _, _, ha, enters, passes, inner, ends,
        List.mem_singleton.1 hc⟩

/-! ## Open frames -/

/-- The children of the open frames are built, the outermost from the first token on, each of the
others from the token on for which its rule was entered. -/
inductive Standing (g : Grammar) (T : List Token) : Nat → List Frame → Prop
  | outermost {f : Frame} {k : Nat} (start : g.start? = some f.rule)
      (built : Built g T f.rule f.state 0 k f.children) : Standing g T k [f]
  | above {top lower : Frame} {below : List Frame} {s j k : Nat} {a : Arc}
      (built : Built g T top.rule top.state j k top.children) (ha : a ∈ lower.rule.arcs s)
      (enters : g.Enters a top.rule) (target : a.target = lower.state)
      (passes : Passes g T j ((top.rule, 0) :: (lower.rule, lower.state) :: spineOf below))
      (h : Standing g T j (⟨lower.rule, s, lower.children⟩ :: below)) :
      Standing g T k (top :: lower :: below)

/-- The innermost frame goes on. -/
theorem Standing.grow {below : List Frame} {ts' : List Tree}
    (h : Standing g T j (⟨r, s, ts⟩ :: below))
    (more : ∀ i, Built g T r s i j ts → Built g T r s' i k ts') :
    Standing g T k (⟨r, s', ts'⟩ :: below) := by
  cases h with
  | outermost start built => exact .outermost start (more 0 built)
  | above built ha enters target passes h => exact .above (more _ built) ha enters target passes h

/-- The tokens before this number have been read: frames are open, or the tree is the closed frame
of the start rule. -/
def Stands (g : Grammar) (T : List Token) (k : Nat) (p : Parser) : Prop :=
  (p.stack ≠ [] ∧ Standing g T k p.stack) ∨
    (p.stack = [] ∧ ∃ start s ts, g.start? = some start ∧ Built g T start s 0 k ts ∧
      start.accepts s = true ∧ p.root = some (Frame.close ⟨start, s, ts⟩))

/-- Closing a rule that may end. -/
theorem Standing.pop (h : Standing g T k p.stack) (hs : p.stack = top :: rest)
    (ends : top.rule.accepts top.state = true) : Stands g T k p.pop := by
  rw [hs] at h
  cases h with
  | outermost start built =>
    obtain ⟨stack, root⟩ := pop_outermost hs
    exact .inr ⟨stack, _, _, _, start, built, ends, root⟩
  | @above _ lower below s j _ a built ha enters target passes h =>
    obtain ⟨stack, -⟩ := pop_inner hs
    refine .inl ⟨by rw [stack]; exact List.cons_ne_nil _ _, ?_⟩
    rw [stack]
    apply h.grow
    intro i before
    rw [← target] at passes ⊢
    exact before.node ha enters passes built ends

theorem Stands.popCompleted {n : Nat} (h : Stands g T k p) : Stands g T k (popCompleted n p) := by
  refine popCompleted_keeps (P := Stands g T k) (fun hs only h => ?_) h
  rcases h with ⟨-, standing⟩ | ⟨empty, -⟩
  · exact standing.pop hs (accepts_of_acceptsOnly only)
  · rw [hs] at empty
    cases empty

/-- A token that is shifted is built into the open frames. -/
theorem Runs.stands {x : Outcome × Parser} {done : Bool} (h : Runs g label t p x)
    (token : T[k]? = some t) (class_ : classify g t = some label)
    (standing : Standing g T k p.stack)
    (through : Through g label (fed g (T.take k)).spine p.spine) (hx : x.1 = .shifted done) :
    Stands g T (k + 1) x.2 := by
  induction h with
  | @shift p top rest target hs hm =>
    obtain ⟨a, ha, rfl, rfl⟩ := move?_shift hm
    apply Stands.popCompleted
    have moved : (p.moveTo a.target).stack = _ := moveTo_stack hs
    obtain ⟨-, stack⟩ := addLeaf_open (l := leafOf g a.label t) moved
    refine .inl ⟨by rw [stack]; exact List.cons_ne_nil _ _, ?_⟩
    rw [stack]
    rw [hs] at standing
    apply standing.grow
    intro i before
    exact before.leaf ha token class_
  | @enter p top rest sub target x hs hm _ ih =>
    obtain ⟨a, ha, enters, -, rfl⟩ := move?_enter hm
    have passed : Through g label (fed g (T.take k)).spine (p.push sub a.target).spine := by
      rw [spine_eq hs] at through
      rw [spine_push hs]
      exact through.trans (.enter hm (.refl _))
    refine ih ?_ passed hx
    rw [push_stack hs]
    rw [hs] at standing
    refine .above (.start sub k) ha enters rfl ⟨t, label, token, class_, ?_⟩ standing
    rwa [spine_push hs] at passed
  | @close p top rest x hs bottom hm ends _ ih =>
    have passed : Through g label (fed g (T.take k)).spine p.pop.spine := by
      rw [spine_eq hs] at through
      rw [spine_pop, spine_eq hs, List.tail_cons]
      exact through.trans (.close hm ends (.refl _))
    rcases standing.pop hs ends with ⟨-, standing'⟩ | ⟨empty, -⟩
    · exact ih standing' passed hx
    · have shorter := pop_stack_length hs
      rw [empty, List.length_nil, eq_comm, List.length_eq_zero_iff] at shorter
      exact absurd shorter bottom
  | complete => cases hx
  | last => cases hx
  | stuck => cases hx

/-- All tokens that are shifted are built into the open frames. -/
theorem Reads.stands {before tokens : List Token} (reads : Reads g p tokens)
    (split : T = before ++ tokens) (hp : p = fed g before)
    (stands : Stands g T before.length p) : Stands g T T.length (feedFrom g p tokens) := by
  induction reads generalizing before with
  | nil p =>
    rw [split, List.append_nil] at stands ⊢
    exact stands
  | @cons p t tokens label done ready class_ answer runs rest ih =>
    have here : T.take before.length = before := by rw [split, List.take_left]
    have token : T[before.length]? = some t := by rw [split]; simp
    rcases stands with ⟨-, standing⟩ | ⟨empty, -⟩
    · have next : Stands g T (before.length + 1) (feed g t p).2 := by
        refine runs.stands token class_ (by rwa [stack_count]) ?_ rfl
        rw [here, ← hp, spine_count]
        exact .refl _
      have fed_ : (feed g t p).2 = fed g (before ++ [t]) := by
        rw [hp]
        exact (feedFrom_append before [t]).symm
      exact ih (by simp [split]) fed_ (by simpa using next)
    · exact absurd empty ready.orderly.ne_nil

/-- Without recovery the tree of a source is the closed frame of the start rule, built of all
tokens. -/
theorem clean_built (ok : g.Consistent) (lay : g.Layered) (closed : g.Sealed) {body : List Token}
    {last : Token} (inner : ∀ t ∈ body, t.kind ≠ .endMarker) (marker : last.kind = .endMarker)
    (clean : Clean g (new g) (body ++ [last])) :
    ∃ start s ts, g.start? = some start ∧
      Built g (body ++ [last]) start s 0 (body ++ [last]).length ts ∧ start.accepts s = true ∧
      (fed g (body ++ [last])).stack = [] ∧
      (fed g (body ++ [last])).root = some (Frame.close ⟨start, s, ts⟩) := by
  have steadfast := steadfast_new ok
  have reads := clean.reads ok lay steadfast (by rwa [List.dropLast_concat])
  obtain ⟨start, hs⟩ := ok.start
  have stack := new_stack hs
  have fresh : Stands g (body ++ [last]) ([] : List Token).length (new g) :=
    .inl ⟨by rw [stack]; exact List.cons_ne_nil _ _,
      by rw [stack]; exact .outermost hs (.start _ _)⟩
  have stands := reads.stands (List.nil_append _).symm rfl fresh
  -- the end marker has left no frame open
  have answer := ((clean.accepts ok lay closed inner marker steadfast).2 body last [] rfl).2.2 rfl
  have empty : (fed g (body ++ [last])).stack = [] := by
    have ready := clean.left.steadfast ok lay steadfast inner
    obtain ⟨label, done, class_, answer', runs⟩ :=
      feed_reads ok lay ready.toReady ready.kept (clean body last [] rfl)
    rw [answer, Except.ok.injEq] at answer'
    have none := runs.done_eq rfl
    rw [← answer', eq_comm, isDone_iff] at none
    exact (congrArg Parser.stack (feedFrom_append body [last])).trans none
  rcases stands with ⟨open_, -⟩ | ⟨-, start', s, ts, hs', built, ends, root⟩
  · exact absurd empty open_
  · exact ⟨start', s, ts, hs', built, ends, empty, root⟩

/-- Without recovery the tree of a source is grown of its tokens. -/
theorem clean_grown (ok : g.Consistent) (lay : g.Layered) (closed : g.Sealed) {source : Text}
    {m : Module} (parsed : Module.parse g source = .ok m)
    (clean : Clean g (new g) (tokenize (Module.completed source))) :
    Grown g (tokenize (Module.completed source)) m.root ∧
      ∃ ts, m.root = .branch "file_input" ts := by
  obtain ⟨body, last, tokens, marker, inner⟩ := tokenize_eq (Module.completed source)
  rw [Module.parse_eq ok lay, tokens, Except.ok.injEq] at parsed
  rw [tokens] at clean ⊢
  obtain ⟨start, s, ts, hs, built, ends, empty, root⟩ :=
    clean_built ok lay closed inner marker clean
  have same : m.root = Frame.close ⟨start, s, ts⟩ := by
    rw [← parsed, finish, empty, List.length_nil, closeAll, root]
  rw [same]
  refine ⟨grown_close (Array.mem_of_getElem? hs) built ends built.grown, ts, ?_⟩
  have name := lay.name hs
  rw [Frame.close_kept (by rw [name]; decide), name]

end Caret.Parser

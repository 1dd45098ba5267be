import Caret.Proofs.Expectation
import Caret.Proofs.Statements
/-!
# Parsers that are alike above a frame

A frame that neither takes a token nor may end keeps what is below it out of sight: what becomes of
the token depends on the frames above only. So two parsers with the same frames above such a frame
stay alike as long as the tokens are the same, and the same may come next. A parser that reads a
part of a simple statement in a source, and one that reads the tokens of the part alone, get alike
with the first token.

Results:
* `Runs.alike`, `Reads.alike`: parsers that are alike above a frame stay alike.
* `Part.alike`: a part read in a source and read alone.
* `fits_inline`: what may come next in a part, or behind it.
* `Completion.expected_alike`: the same may come next for parsers that are alike.
-/
namespace Caret

namespace Parser

variable {g : Grammar} {T : List Token} {label target : Nat} {t t' : Token} {p p' q : Parser}
  {f : RuleTable × Nat} {above above' below below' : List (RuleTable × Nat)} {x : Outcome × Parser}
  {rule : RuleTable} {state : Nat} {follow : RuleTable → Nat → Prop}

/-! ## One token -/

/-- The frame neither takes the label nor may end. -/
def Refuses (g : Grammar) (label : Nat) (f : RuleTable × Nat) : Prop :=
  f.1.accepts f.2 = false ∧ move? g label (f.1.arcs f.2) = none

theorem acceptsOnly_false (h : rule.accepts state = false) : rule.acceptsOnly state = false := by
  by_contra only
  rw [accepts_of_acceptsOnly (by simpa using only)] at h
  cases h

/-- The innermost frame of a spine, given as a pair. -/
theorem spine_head {top : Frame} {rest : List Frame} (hs : p.stack = top :: rest)
    (hp : p.spine = f :: below) :
    top.rule = f.1 ∧ top.state = f.2 ∧ spineOf rest = below :=
  spine_top hs hp

/-- Of the frames above one that goes on, those are closed that can do nothing but end. -/
theorem spine_popCompleted {n : Nat} (hp : p.spine = above ++ f :: below)
    (more : f.1.acceptsOnly f.2 = false) (hn : above.length ≤ n) :
    (popCompleted n p).spine =
      above.dropWhile (fun h => h.1.acceptsOnly h.2) ++ f :: below := by
  have stays {p : Parser} {h : RuleTable × Nat} {rest : List (RuleTable × Nat)} {n : Nat}
      (hp : p.spine = h :: rest) (more : h.1.acceptsOnly h.2 = false) : popCompleted n p = p := by
    cases hs : p.stack with
    | nil => rw [spine, hs] at hp; cases hp
    | cons top frames =>
      obtain ⟨rule, state, -⟩ := spine_head hs hp
      exact popCompleted_eq hs (by rw [rule, state]; exact more)
  induction above generalizing p n with
  | nil =>
    rw [stays hp more, hp]
    rfl
  | cons h above ih =>
    by_cases only : h.1.acceptsOnly h.2 = true
    · rw [List.dropWhile_cons, if_pos only]
      obtain ⟨n, rfl⟩ : ∃ m, n = m + 1 := ⟨n - 1, by simp only [List.length_cons] at hn; omega⟩
      have popped : p.pop.spine = above ++ f :: below := by rw [spine_pop, hp]; rfl
      cases hs : p.stack with
      | nil => rw [spine, hs] at hp; cases hp
      | cons top frames =>
        obtain ⟨rule, state, -⟩ := spine_head hs hp
        have closes : popCompleted (n + 1) p = popCompleted n p.pop := by
          rw [popCompleted, hs]
          dsimp only
          rw [if_pos (by rw [rule, state]; exact only)]
        rw [closes]
        exact ih popped (by simp only [List.length_cons] at hn; omega)
    · rw [stays hp (by simpa using only), hp, List.dropWhile_cons, if_neg only]

/-- What a shift leaves of the frames above one that goes on. -/
theorem spine_take (hp : p.spine = (rule, state) :: above ++ f :: below)
    (more : f.1.acceptsOnly f.2 = false) : (take g label target t p).spine =
      ((rule, target) :: above).dropWhile (fun h => h.1.acceptsOnly h.2) ++ f :: below := by
  cases hs : p.stack with
  | nil => rw [spine, hs] at hp; cases hp
  | cons top rest =>
    obtain ⟨rfl, rfl, tail⟩ := spine_top hs hp
    have moved : ((p.moveTo target).addLeaf (leafOf g label t)).spine =
        ((top.rule, target) :: above) ++ f :: below := by
      rw [spine_addLeaf, spine_moveTo hs, tail]
      rfl
    apply spine_popCompleted moved more
    rw [stack_length, moved]
    simp

/-- A token that is shifted above a frame that refuses it leaves that frame and those below as they
are, and does the same above it whatever is below. -/
theorem Runs.alike {done : Bool} (runs : Runs g label t p x) (hp : p.spine = above ++ f :: below)
    (refuses : Refuses g label f) (hx : x.1 = .shifted done) :
    ∃ above', x.2.spine = above' ++ f :: below ∧
      ∀ {q : Parser} {t' : Token} {x' : Outcome × Parser} {below' : List (RuleTable × Nat)},
        q.spine = above ++ f :: below' → Runs g label t' q x' →
          (∃ done', x'.1 = .shifted done') ∧ x'.2.spine = above' ++ f :: below' := by
  obtain ⟨ends, still⟩ := refuses
  have more := acceptsOnly_false ends
  induction runs generalizing above with
  | complete => cases hx
  | last => cases hx
  | stuck => cases hx
  | @shift p top rest target hs hm =>
    cases above with
    | nil =>
      obtain ⟨rule, state, -⟩ := spine_head hs hp
      rw [Frame.arcs, rule, state, still] at hm
      cases hm
    | cons h above =>
      obtain ⟨rule, state, -⟩ := spine_head hs hp
      rw [Frame.arcs, rule, state] at hm
      refine ⟨_, spine_take hp more, fun hq runs => ?_⟩
      have same := runs.of_shift hq hm
      rw [same]
      exact ⟨⟨_, rfl⟩, spine_take hq more⟩
  | @enter p top rest sub target x hs hm next ih =>
    cases above with
    | nil =>
      obtain ⟨rule, state, -⟩ := spine_head hs hp
      rw [Frame.arcs, rule, state, still] at hm
      cases hm
    | cons h above =>
      obtain ⟨rule, state, tail⟩ := spine_head hs hp
      rw [Frame.arcs, rule, state] at hm
      have pushed : (p.push sub target).spine =
          (sub, 0) :: (h.1, target) :: above ++ f :: below := by
        rw [spine_push hs, rule, tail]
        rfl
      obtain ⟨above', after, alike⟩ := ih pushed hx
      refine ⟨above', after, fun hq runs => ?_⟩
      obtain ⟨next, hq'⟩ := runs.of_enter hq hm
      exact alike hq' next
  | @close p top rest x hs bottom hm accepts next ih =>
    cases above with
    | nil =>
      obtain ⟨rule, state, -⟩ := spine_head hs hp
      rw [rule, state, ends] at accepts
      cases accepts
    | cons h above =>
      obtain ⟨rule, state, -⟩ := spine_head hs hp
      rw [Frame.arcs, rule, state] at hm
      rw [rule, state] at accepts
      have popped : p.pop.spine = above ++ f :: below := by rw [spine_pop, hp]; rfl
      obtain ⟨above', after, alike⟩ := ih popped hx
      refine ⟨above', after, fun hq runs => ?_⟩
      obtain ⟨next, hq'⟩ := runs.of_close hq hm accepts (by simp)
      exact alike hq' next

/-! ## Tokens -/

/-- What the parser tells tokens by. -/
def face (t : Token) : TokenKind × Text := (t.kind, t.value)

theorem classify_face (h : face t = face t') : classify g t = classify g t' := by
  obtain ⟨kind, value⟩ := Prod.mk.inj h
  rw [classify, classify, kind, value]

/-- The parsers have the same frames above this one. -/
def Alike (f : RuleTable × Nat) (p q : Parser) : Prop :=
  ∃ above below below', p.spine = above ++ f :: below ∧ q.spine = above ++ f :: below'

/-- A token that is shifted above a frame that refuses it, and its like. On their way the tokens
find frames that are alike above that frame, so the parsers are alike afterwards. -/
theorem feed_alike {done : Bool} (ok : g.Consistent) (runs : Runs g label t p (.shifted done, p'))
    (through : Through g label p.spine (above ++ f :: below)) (refuses : Refuses g label f)
    (known : Known g q) (kept : q.omitted = []) (class_ : classify g t' = some label)
    (through' : Through g label q.spine (above ++ f :: below')) :
    Alike f p' (feed g t' q).2 ∧ (feed g t' q).2.omitted = [] := by
  have some {below : List (RuleTable × Nat)} : above ++ f :: below ≠ [] := by simp
  obtain ⟨before, hp, runs⟩ := through.runs runs rfl some
  obtain ⟨above', after, alike⟩ := runs.alike hp refuses rfl
  have runs' := runs_shift ok known.count class_ (t := t') (p := q.count t'.kind)
  obtain ⟨before', hq, later⟩ := through'.runs runs' (by rw [spine_count]) some
  obtain ⟨⟨done', shifted⟩, after'⟩ := alike hq later
  have split : shift g t' (q.count t'.kind) =
      (.shifted done', (shift g t' (q.count t'.kind)).2) := Prod.ext shifted rfl
  have open_ : q.stack ≠ [] := by
    intro empty
    rw [spine, empty] at through'
    generalize hs : above ++ f :: below' = spine at through'
    cases through'
    exact some hs
  rw [feed_shifted kept open_ split]
  refine ⟨⟨above', below, below', after, after'⟩, ?_⟩
  rw [runs'.omitted]
  simpa using kept

/-- Parsers that are alike above a frame stay alike, as long as that frame refuses the tokens. -/
theorem Reads.alike (ok : g.Consistent) {ts ts' : List Token} (reads : Reads g p ts)
    (refuses : ∀ t ∈ ts, ∀ label, classify g t = some label → Refuses g label f)
    (faces : ts.map face = ts'.map face) (alike : Alike f p q) (known : Known g q)
    (kept : q.omitted = []) : Alike f (feedFrom g p ts) (feedFrom g q ts') := by
  induction reads generalizing q ts' with
  | nil p =>
    obtain rfl : ts' = [] := List.map_eq_nil_iff.1 faces.symm
    exact alike
  | @cons p t ts label done before class_ answer runs rest ih =>
    obtain ⟨t', ts', rfl⟩ : ∃ t' more, ts' = t' :: more :=
      List.exists_cons_of_ne_nil fun none => by rw [none] at faces; cases faces
    obtain ⟨same, more⟩ := List.cons.inj faces
    obtain ⟨above, below, below', hp, hq⟩ := alike
    have refused := refuses t List.mem_cons_self label class_
    obtain ⟨alike', kept'⟩ := feed_alike ok runs (by rw [spine_count, hp]; exact .refl _) refused
      known kept (classify_face same ▸ class_) (by rw [hq]; exact .refl _)
    rw [feedFrom_cons, feedFrom_cons]
    exact ih (fun u hu => refuses u (List.mem_cons_of_mem _ hu)) more alike' (known.feed ok) kept'

/-! ## Parts of a simple statement -/

/-- A frame enters the rule on an arc with the labels that the rule can start with. -/
theorem move?_entered {a : Arc} {sub r : RuleTable} {s : Nat} (ok : g.Consistent)
    (ll : g.Predictive follow) (known : r ∈ g.rules) (ha : a ∈ r.arcs s) (enters : g.Enters a sub)
    (first : label ∈ sub.first) : move? g label (r.arcs s) = some (.enter sub a.target) := by
  have terminal := ((ok.mem_first enters.mem).1 first).1
  have takes : g.Takes a label := .inr ⟨sub, enters, first⟩
  cases hm : move? g label (r.arcs s) with
  | none => exact absurd takes (move?_none.1 hm a ha)
  | some move =>
    obtain ⟨b, hb, ⟨carries, -⟩ | ⟨sub', enters', first', rfl⟩⟩ := move?_some hm
    · obtain rfl := ll.disjoint known ha hb terminal takes (.inl carries)
      rw [← carries, enters.not_terminal] at terminal
      cases terminal
    · obtain rfl := ll.disjoint known ha hb terminal takes (.inr ⟨sub', enters', first'⟩)
      rw [Grammar.Enters.unique enters' enters]

/-- A rule can start with what a rule that it starts with can start with. -/
theorem first_entered {a : Arc} {sub r : RuleTable} (ok : g.Consistent) (known : r ∈ g.rules)
    (ha : a ∈ r.arcs 0) (enters : g.Enters a sub) (first : label ∈ sub.first) :
    label ∈ r.first :=
  (ok.mem_first known).2 ⟨((ok.mem_first enters.mem).1 first).1, a, ha, .inr ⟨sub, enters, first⟩⟩

/-- At the start of a source a token that a part can start with gets to the rule of the part. -/
theorem start_through {a : Arc} {sub r : RuleTable} {s : Nat} (ok : g.Consistent)
    (ll : g.Predictive follow) (stated : g.Stated) (known : r ∈ g.rules)
    (name : r.name = "simple_stmt") (ha : a ∈ r.arcs s) (enters : g.Enters a sub)
    (first : label ∈ sub.first) :
    ∃ below, Through g label (new g).spine ((sub, 0) :: (r, 1) :: below) := by
  obtain ⟨start, stmt, hstart, ⟨b, hb, entersStmt⟩, ⟨c, hc, entersSimple⟩, d, hd, entersSub⟩ :=
    stated.starts known name ha enters
  obtain ⟨-, target⟩ := stated.parts known name hd entersSub
  have firstSimple := first_entered ok known hd entersSub first
  have firstStmt := first_entered ok entersStmt.mem hc entersSimple firstSimple
  have knownStart : start ∈ g.rules := Array.mem_of_getElem? hstart
  refine ⟨[(stmt, c.target), (start, b.target)], ?_⟩
  rw [spine_eq (new_stack hstart)]
  refine .enter (move?_entered ok ll knownStart hb entersStmt firstStmt) ?_
  refine .enter (move?_entered ok ll entersStmt.mem hc entersSimple firstSimple) ?_
  refine .enter (move?_entered ok ll known hd entersSub first) ?_
  rw [target]
  exact .refl _

/-- Behind a part a simple statement refuses the tokens that may be in a part. -/
theorem refuses_inline {r : RuleTable} (stated : g.Stated) (known : r ∈ g.rules)
    (name : r.name = "simple_stmt") (inline : g.Inline label) : Refuses g label (r, 1) := by
  obtain ⟨ends, arcs⟩ := stated.behind known name
  refine ⟨ends, move?_none.2 fun a ha takes => ?_⟩
  have terminal := arcs a ha
  rw [Grammar.takes_terminal terminal] at takes
  obtain ⟨kind, hkind, token⟩ := stated.ends known name ha terminal
  rw [← takes] at token
  exact inline kind (List.mem_append_left _ hkind) token

/-- Reading goes on behind the first tokens. -/
theorem Reads.split {ts us : List Token} (h : Reads g p (ts ++ us)) :
    Reads g p ts ∧ Reads g (feedFrom g p ts) us := by
  induction ts generalizing p with
  | nil => exact ⟨.nil p, h⟩
  | cons t ts ih =>
    cases h with
    | cons before class_ answer runs rest =>
      obtain ⟨front, back⟩ := ih rest
      exact ⟨.cons before class_ answer runs front, back⟩

/-- Tokens from one number up to another, read behind those before. -/
theorem Reads.slice {i n : Nat} (h : Reads g (new g) T) (le : i ≤ n) :
    Reads g (fed g (T.take i)) ((T.take n).drop i) ∧
      feedFrom g (fed g (T.take i)) ((T.take n).drop i) = fed g (T.take n) := by
  constructor
  · rw [← List.take_append_drop n T, take_slice le, List.append_assoc] at h
    exact h.split.2.split.1
  · conv_rhs => rw [take_slice le]
    exact (feedFrom_append _ _).symm

/-- The frame of the simple statement refuses the tokens of a part. -/
theorem Part.refuses {tree : Tree} {r : RuleTable} {i j m : Nat} (stated : g.Stated)
    (part : Part g T i j tree) (known : r ∈ g.rules) (name : r.name = "simple_stmt") (from_ : i ≤ m)
    (upTo : m < j) (token : T[m]? = some t) (class_ : classify g t = some label) :
    Refuses g label (r, 1) := by
  obtain ⟨t', label', token', class', inline⟩ := part.inline m from_ upTo
  rw [token] at token'
  cases token'
  rw [class_] at class'
  cases class'
  exact refuses_inline stated known name inline

/-- A token that is shifted and finds a rule just entered is one that the rule can start with. -/
theorem Through.first {spine : List (RuleTable × Nat)} {sub : RuleTable} {done : Bool}
    (ok : g.Consistent) (ll : g.Predictive follow)
    (through : Through g label spine ((sub, 0) :: below)) (known : sub ∈ g.rules)
    (terminal : g.isTerminal label = true) (runs : Runs g label t p (.shifted done, p'))
    (hp : p.spine = spine) : label ∈ sub.first := by
  obtain ⟨q, hq, later⟩ := through.runs runs hp (List.cons_ne_nil _ _)
  have fits := (later.shifted_iff ok).1 ⟨_, rfl⟩
  rw [hq] at fits
  rcases fits with ⟨b, hb, takes⟩ | ⟨ends, -⟩
  · exact (ok.mem_first known).2 ⟨terminal, b, hb, takes⟩
  · rw [ll.nonempty known] at ends
    cases ends

/-- A part read in a source, up to some token, and tokens like those read alone: afterwards the
parsers are alike above the frame of the simple statement. -/
theorem Part.alike {tree : Tree} {i j n : Nat} {us : List Token} (ok : g.Consistent)
    (ll : g.Predictive follow) (stated : g.Stated) (reads : Reads g (new g) T)
    (part : Part g T i j tree) (some : i < n) (upTo : n ≤ j)
    (faces : ((T.take n).drop i).map face = us.map face) :
    ∃ r, r ∈ g.rules ∧ r.name = "simple_stmt" ∧ Alike (r, 1) (fed g (T.take n)) (fed g us) := by
  obtain ⟨r, sub, below, s, a, known, name, ha, enters, t, label, token, class_, through⟩ :=
    part.passes
  have tokens := slice_cons token some
  obtain ⟨slice, whole⟩ := reads.slice some.le
  rw [tokens] at faces slice whole
  obtain ⟨t', us, rfl⟩ : ∃ t' more, us = t' :: more :=
    List.exists_cons_of_ne_nil fun none => by rw [none] at faces; cases faces
  obtain ⟨same, more⟩ := List.cons.inj faces
  refine ⟨r, known, name, ?_⟩
  cases slice with
  | @cons _ _ _ label' done before class_' answer runs rest =>
  rw [class_] at class_'
  cases class_'
  -- the first token finds the rule of the part on the frame of the statement, here and there
  have first : label ∈ sub.first :=
    through.first ok ll enters.mem (classify_terminal class_) runs (by rw [spine_count])
  obtain ⟨below', through'⟩ := start_through ok ll stated known name ha enters first
  have entered : Through g label ((fed g (T.take i)).count t.kind).spine
      ([(sub, 0)] ++ (r, 1) :: below) := by
    rw [spine_count]
    exact through
  obtain ⟨alike, kept⟩ := feed_alike ok runs entered
    (part.refuses stated known name (Nat.le_refl i) (by omega) token class_) (known_new g) rfl
    (classify_face same ▸ class_) through'
  have fresh : fed g (t' :: us) = feedFrom g (feed g t' (new g)).2 us := rfl
  rw [← whole, feedFrom_cons, fresh]
  refine rest.alike ok (fun u hu label' hl => ?_) more alike ((known_new g).feed ok) kept
  obtain ⟨m, from_, upTo', token⟩ := mem_slice hu
  exact part.refuses stated known name (by omega) (by omega) token hl

/-! ## What may come next in a part -/

/-- What a part can start with may be in a part. -/
theorem first_inline {r : RuleTable} (ok : g.Consistent) (stated : g.Stated) (known : r ∈ g.rules)
    (name : r.name ∉ lineRules) (first : label ∈ r.first) : g.Inline label := by
  obtain ⟨rank, -, ranked⟩ := ok.rank
  generalize hn : rank r = n
  induction n using Nat.strongRecOn generalizing r with
  | ind n ih =>
    obtain ⟨terminal, a, ha, takes⟩ := (ok.mem_first known).1 first
    obtain ⟨own, entered⟩ := stated.inline known ha name
    rcases takes with rfl | ⟨sub, enters, first⟩
    · exact own
    · have lower := ranked r known a ha sub enters
      exact ih (rank sub) (hn ▸ lower) enters.mem (entered sub enters) first rfl

/-- The frames above that of a simple statement are of rules that hold no line end. -/
theorem Linked.inside {r : RuleTable} {s : Nat} (stated : g.Stated)
    (linked : Linked g (above ++ (r, s) :: below))
    (known : ∀ f ∈ above ++ (r, s) :: below, f.1 ∈ g.rules) (name : r.name = "simple_stmt") :
    ∀ h ∈ above, h.1.name ∉ lineRules := by
  induction above with
  | nil => simp
  | cons h above ih =>
    have lower := ih linked.tail fun f hf => known f (List.mem_cons_of_mem _ hf)
    intro h' hh'
    rcases List.mem_cons.1 hh' with rfl | hh'
    · cases above with
      | nil =>
        cases linked with
        | cons ha enters => exact (stated.parts (known (r, s) (by simp)) name ha enters).1
      | cons next above =>
        cases linked with
        | @cons _ rule state _ _ _ _ ha enters =>
          have inner := lower _ List.mem_cons_self
          exact (stated.inline (known (rule, state) (by simp)) ha inner).2 _ enters
    · exact lower h' hh'

/-- In a part or behind it may come what may be in a part, or a semicolon or a line end. -/
theorem fits_inline {r : RuleTable} (ok : g.Consistent) (stated : g.Stated)
    (known : ∀ f ∈ above ++ (r, 1) :: below, f.1 ∈ g.rules) (name : r.name = "simple_stmt")
    (inside : ∀ h ∈ above, h.1.name ∉ lineRules)
    (fits : Fits g label (above ++ (r, 1) :: below)) :
    g.Inline label ∨ ∃ kind ∈ Grammar.partEnds, g.label? label = some (.token kind) := by
  induction above with
  | nil =>
    have known : r ∈ g.rules := known (r, 1) List.mem_cons_self
    obtain ⟨ends, arcs⟩ := stated.behind known name
    rcases fits with ⟨a, ha, takes⟩ | ⟨accepts, -⟩
    · rw [Grammar.takes_terminal (arcs a ha)] at takes
      rw [takes]
      exact .inr (stated.ends known name ha (arcs a ha))
    · rw [ends] at accepts
      cases accepts
  | cons h above ih =>
    rcases fits with ⟨a, ha, takes⟩ | ⟨-, fits⟩
    · left
      obtain ⟨own, entered⟩ :=
        stated.inline (known h List.mem_cons_self) ha (inside h List.mem_cons_self)
      rcases takes with rfl | ⟨sub, enters, first⟩
      · exact own
      · exact first_inline ok stated enters.mem (entered sub enters) first
    · exact ih (fun f hf => known f (List.mem_cons_of_mem _ hf))
        (fun h hh => inside h (List.mem_cons_of_mem _ hh)) fits

end Parser

namespace Completion

variable {g : Grammar} {f : RuleTable × Nat} {above below below' : List (RuleTable × Nat)}

/-- Steps that are the same on each element are the same on all of them. -/
theorem foldlM_same {α β ε : Type} {step step' : β → α → Except ε β} {xs : List α}
    (same : ∀ x ∈ xs, ∀ b, step b x = step' b x) (b : β) :
    xs.foldlM step b = xs.foldlM step' b := by
  induction xs generalizing b with
  | nil => rfl
  | cons x xs ih =>
    rw [List.foldlM_cons, List.foldlM_cons, same x List.mem_cons_self]
    congr 1
    funext c
    exact ih (fun y hy => same y (List.mem_cons_of_mem _ hy)) c

/-- Below a frame that may not end nothing is taken in. -/
theorem Expected.scan_alike {stack stack' : List Frame} (ends : f.1.accepts f.2 = false)
    (h : Parser.spineOf stack = above ++ f :: below)
    (h' : Parser.spineOf stack' = above ++ f :: below') (e : Expected) :
    scan g stack e = scan g stack' e := by
  have frame {stack : List Frame} {x : RuleTable × Nat} {rest : List (RuleTable × Nat)}
      (h : Parser.spineOf stack = x :: rest) : ∃ top tail, stack = top :: tail ∧
        top.arcs = x.1.arcs x.2 ∧ Parser.spineOf tail = rest := by
    obtain ⟨top, tail, rfl, rfl, rfl⟩ := List.map_eq_cons_iff.1 h
    exact ⟨top, tail, rfl, rfl, rfl⟩
  induction above generalizing stack stack' e with
  | nil =>
    obtain ⟨top, tail, rfl, arcs, -⟩ := frame h
    obtain ⟨top', tail', rfl, arcs', -⟩ := frame h'
    rw [scan, scan, arcs, arcs']
    refine foldlM_same (fun a ha b => ?_) e
    have label : a.label ≠ 0 := by
      intro zero
      rw [RuleTable.accepts, List.any_eq_false] at ends
      exact ends a ha (by simp [zero])
    rw [if_neg label, if_neg label]
  | cons x above ih =>
    obtain ⟨top, tail, rfl, arcs, rest⟩ := frame h
    obtain ⟨top', tail', rfl, arcs', rest'⟩ := frame h'
    rw [scan, scan, arcs, arcs']
    refine foldlM_same (fun a _ b => ?_) e
    rw [ih rest rest' b]

/-- Where parsers are alike above a frame that may not end, the same may come next. -/
theorem expected_alike {p q : Parser} (ends : f.1.accepts f.2 = false)
    (alike : Parser.Alike f p q) : expected g p.stack = expected g q.stack := by
  obtain ⟨above, below, below', hp, hq⟩ := alike
  rw [expected, expected, Expected.scan_alike ends hp hq]

end Completion

end Caret

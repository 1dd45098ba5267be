import Caret.Proofs.Alike
/-!
# Open brackets

The scanner counts the brackets that are open; between brackets a line may end anywhere. A rule that
takes an opening bracket takes the closing one as well, so in a parse without recovery the open
frames tell how many brackets are open, too. A statement starts where none is.

Results:
* `Grammar.Bracketed`: in each state of a rule it is known how many of its brackets are open.
* `Runs.brackets`, `Reads.brackets`: the open frames have as many brackets open as the tokens.
* `Part.depth`: before a part of a simple statement no bracket is open.
-/
namespace Caret

/-! ## Tables -/

namespace Grammar

variable {g : Grammar}

/-- The open brackets behind a label, with so many of them open before. -/
def depthAfter (g : Grammar) (label depth : Nat) : Nat :=
  match g.label? label with
  | some (.token kind) => Scanner.depthAfter kind depth
  | _ => depth

/-- In a state of a rule so many of its brackets are open: none at its start and where it may end,
none where it holds a statement, and the tokens on its arcs change the number as they do for the
scanner. -/
structure Bracketed (g : Grammar) (w : RuleTable → Nat → Nat) : Prop where
  start : ∀ {r : RuleTable}, r ∈ g.rules → w r 0 = 0
  ends : ∀ {r : RuleTable} {s : Nat}, r ∈ g.rules → r.accepts s = true → w r s = 0
  flat : ∀ {r : RuleTable} {s : Nat}, r.name = "simple_stmt" → w r s = 0
  enters : ∀ {r sub : RuleTable} {s : Nat} {a : Arc}, r ∈ g.rules → a ∈ r.arcs s →
    g.Enters a sub → w r a.target = w r s ∧ (sub.name ∈ statementRules → w r s = 0)
  takes : ∀ {r : RuleTable} {s : Nat} {a : Arc}, r ∈ g.rules → a ∈ r.arcs s →
    g.isTerminal a.label = true → ∀ more, w r a.target + more = g.depthAfter a.label (w r s + more)

/-- What happens where no bracket or one is open around the rule happens with more of them. -/
theorem depthAfter_more {label own after : Nat} (alone : after = g.depthAfter label own)
    (inside : after + 1 = g.depthAfter label (own + 1)) (more : Nat) :
    after + more = g.depthAfter label (own + more) := by
  unfold depthAfter at *
  split at alone
  · next kind hl =>
    cases kind with
    | op o =>
      simp only [hl, Scanner.depthAfter, Operator.depthAfter] at alone inside ⊢
      cases opens : o.opens <;> cases closes : o.closes <;>
        simp only [opens, closes, Bool.false_eq_true, if_true, if_false] at alone inside ⊢ <;> omega
    | _ =>
      simp only [hl, Scanner.depthAfter] at alone inside ⊢
      omega
  · omega

/-- The states of the rules of the Python grammar in which a bracket is open. -/
def bracketedStates : List (String × List Nat) :=
  [("decorator", [3, 6]), ("parameters", [1, 3]), ("import_from", [5, 7]),
    ("atom", [1, 3, 4, 6, 7, 8]), ("trailer", [1, 3, 5, 6]), ("classdef", [3, 6])]

/-- How many of its own brackets a rule of the Python grammar has open in a state. -/
def ownBrackets (r : RuleTable) (state : Nat) : Nat :=
  if bracketedStates.any fun entry => entry.1 == r.name && entry.2.contains state then 1 else 0

theorem python_bracketed : pythonTables.Bracketed ownBrackets := by
  have start : ∀ r ∈ pythonTables.rules.toList, ownBrackets r 0 = 0 := by decide +kernel
  have ends : ∀ r ∈ pythonTables.rules.toList, ∀ s < r.states.size, r.accepts s = true →
      ownBrackets r s = 0 := by
    decide +kernel
  have enters : ∀ r ∈ pythonTables.rules.toList, ∀ s < r.states.size, ∀ a ∈ r.arcs s,
      (pythonTables.entered? a).all (fun sub => ownBrackets r a.target == ownBrackets r s &&
        (!statementRules.contains sub.name || ownBrackets r s == 0)) = true := by
    decide +kernel
  have takes : ∀ r ∈ pythonTables.rules.toList, ∀ s < r.states.size, ∀ a ∈ r.arcs s,
      pythonTables.isTerminal a.label = true →
        ownBrackets r a.target = pythonTables.depthAfter a.label (ownBrackets r s) ∧
          ownBrackets r a.target + 1 = pythonTables.depthAfter a.label (ownBrackets r s + 1) := by
    decide +kernel
  refine ⟨fun hr => start _ (Array.mem_toList_iff.2 hr), fun {r s} hr accepts => ?_,
    fun {r s} name => ?_, fun {r sub s a} hr ha hsub => ?_, fun {r s a} hr ha terminal more => ?_⟩
  · obtain ⟨a, ha, -⟩ := List.any_eq_true.1 accepts
    exact ends r (Array.mem_toList_iff.2 hr) s (lt_size_of_mem_arcs ha) accepts
  · simp [ownBrackets, bracketedStates, name]
  · have check := enters r (Array.mem_toList_iff.2 hr) s (lt_size_of_mem_arcs ha) a ha
    rw [entered?_eq.2 hsub] at check
    simp only [Option.all_some, Bool.and_eq_true, Bool.or_eq_true, Bool.not_eq_true',
      beq_iff_eq] at check
    refine ⟨check.1, fun statement => check.2.resolve_left fun no => ?_⟩
    simp [statement] at no
  · obtain ⟨alone, inside⟩ :=
      takes r (Array.mem_toList_iff.2 hr) s (lt_size_of_mem_arcs ha) a ha terminal
    exact depthAfter_more alone inside more

end Grammar

namespace Parser

variable {g : Grammar} {w : RuleTable → Nat → Nat} {T : List Token} {label : Nat} {t : Token}
  {p q : Parser} {spine spine' below : List (RuleTable × Nat)} {r : RuleTable} {s : Nat}
  {follow : RuleTable → Nat → Prop}

/-! ## Open frames -/

/-- The open brackets of the frames. -/
def openBrackets (w : RuleTable → Nat → Nat) : List (RuleTable × Nat) → Nat
  | [] => 0
  | f :: below => w f.1 f.2 + openBrackets w below

@[simp] theorem openBrackets_cons (f : RuleTable × Nat) :
    openBrackets w (f :: spine) = w f.1 f.2 + openBrackets w spine := rfl

/-- Closing a frame that may end closes no bracket. -/
theorem openBrackets_pop {top : Frame} {rest : List Frame} (br : g.Bracketed w) (known : Known g p)
    (hs : p.stack = top :: rest) (ends : top.rule.accepts top.state = true) :
    openBrackets w p.pop.spine = openBrackets w p.spine := by
  rw [spine_pop, spine_eq hs, openBrackets_cons, br.ends (known.innermost hs) ends]
  simp

/-- A token that is shifted changes the open brackets of the frames as it does for the scanner. -/
theorem Runs.brackets {x : Outcome × Parser} {done : Bool} (br : g.Bracketed w)
    (h : Runs g label t p x) (terminal : g.isTerminal label = true) (known : Known g p)
    (hx : x.1 = .shifted done) :
    openBrackets w x.2.spine = g.depthAfter label (openBrackets w p.spine) := by
  induction h with
  | @shift p top rest target hs hm =>
    obtain ⟨a, ha, rfl, rfl⟩ := move?_shift hm
    have moved : Known g ((p.moveTo a.target).addLeaf (leafOf g a.label t)) := by
      rw [Known, spine_addLeaf]
      exact known.moveTo hs
    have taken : openBrackets w ((p.moveTo a.target).addLeaf (leafOf g a.label t)).spine =
        g.depthAfter a.label (openBrackets w p.spine) := by
      rw [spine_addLeaf, spine_moveTo hs, spine_eq hs, openBrackets_cons, openBrackets_cons]
      exact br.takes (known.innermost hs) ha terminal _
    refine (popCompleted_keeps (P := fun q => Known g q ∧ openBrackets w q.spine = _)
      (fun hs only ⟨known, same⟩ => ⟨known.pop, ?_⟩) ⟨moved, taken⟩).2
    rw [openBrackets_pop br known hs (accepts_of_acceptsOnly only), same]
  | @enter p top rest sub target x hs hm _ ih =>
    obtain ⟨a, ha, enters, -, rfl⟩ := move?_enter hm
    rw [ih (known.push hs enters.mem) hx, spine_push hs, spine_eq hs]
    simp [br.start enters.mem, (br.enters (known.innermost hs) ha enters).1]
  | close hs _ _ ends _ ih =>
    rw [ih known.pop hx, openBrackets_pop br known hs ends]
  | complete => cases hx
  | last => cases hx
  | stuck => cases hx

theorem depthAfter_classify (h : classify g t = some label) (depth : Nat) :
    g.depthAfter label depth = Scanner.depthAfter t.kind depth := by
  rw [Grammar.depthAfter]
  by_cases name : t.kind = .name
  · rw [name]
    rcases classify_label h with ⟨k, hl⟩ | hl
    · rw [hl]
      rfl
    · rw [hl, name]
  · rw [classify_token h name]

/-- The open frames have as many brackets open as the tokens that were read. -/
theorem Reads.brackets (br : g.Bracketed w) {ts : List Token} (reads : Reads g p ts) :
    openBrackets w (feedFrom g p ts).spine = depthBehind (openBrackets w p.spine) ts := by
  induction reads with
  | nil => rfl
  | @cons p t ts label done before class_ answer runs rest ih =>
    have taken := runs.brackets br (classify_terminal class_) before.known.count rfl
    rw [depthAfter_classify class_, spine_count] at taken
    rw [feedFrom_cons, ih, taken]
    rfl

/-- On the way of a token the frames hang together, and the open brackets stay as they are. -/
theorem Through.brackets (br : g.Bracketed w) (h : Through g label spine spine')
    (known : ∀ f ∈ spine, f.1 ∈ g.rules) (linked : Linked g spine) :
    (∀ f ∈ spine', f.1 ∈ g.rules) ∧ Linked g spine' ∧
      openBrackets w spine' = openBrackets w spine := by
  induction h with
  | refl => exact ⟨known, linked, rfl⟩
  | @enter rule sub state target below spine hm _ ih =>
    obtain ⟨a, ha, enters, -, rfl⟩ := move?_enter hm
    have own : rule ∈ g.rules := known (rule, state) List.mem_cons_self
    have all : ∀ f ∈ (sub, 0) :: (rule, a.target) :: below, f.1 ∈ g.rules := by
      intro f hf
      simp only [List.mem_cons] at hf
      rcases hf with rfl | rfl | hf
      · exact enters.mem
      · exact own
      · exact known f (List.mem_cons_of_mem _ hf)
    obtain ⟨known', linked', same⟩ := ih all (.cons ha enters rfl linked.move)
    refine ⟨known', linked', ?_⟩
    rw [same]
    simp [br.start enters.mem, (br.enters own ha enters).1]
  | @close rule state below spine hm ends _ ih =>
    have own : rule ∈ g.rules := known (rule, state) List.mem_cons_self
    obtain ⟨known', linked', same⟩ :=
      ih (fun f hf => known f (List.mem_cons_of_mem _ hf)) linked.tail
    refine ⟨known', linked', ?_⟩
    rw [same, openBrackets_cons, br.ends own ends]
    simp

/-- Below a statement no bracket is open. -/
theorem Linked.closed (br : g.Bracketed w) (stated : g.Stated)
    (linked : Linked g ((r, s) :: below)) (known : ∀ f ∈ below, f.1 ∈ g.rules)
    (statement : r.name ∈ statementRules) : openBrackets w below = 0 := by
  induction below generalizing r s with
  | nil => rfl
  | cons f below ih =>
    cases linked with
    | @cons _ rule state _ _ a _ ha enters target linked =>
      have own : rule ∈ g.rules := known (rule, state) List.mem_cons_self
      obtain ⟨same, flat⟩ := br.enters own ha enters
      have none := ih linked (fun f hf => known f (List.mem_cons_of_mem _ hf))
        (stated.holds own ha enters statement)
      rw [openBrackets_cons, none, ← target, same, flat statement]

/-- Before a part of a simple statement no bracket is open. -/
theorem Part.depth {tree : Tree} {i j : Nat} (ok : g.Consistent) (br : g.Bracketed w)
    (stated : g.Stated) (reads : Reads g (new g) T) (part : Part g T i j tree) :
    depthBehind 0 (T.take i) = 0 := by
  obtain ⟨r, sub, below, s, a, known, name, ha, enters, t, label, token, class_, through⟩ :=
    part.passes
  have front : Reads g (new g) (T.take i) := by
    rw [← List.take_append_drop i T] at reads
    exact reads.split.1
  have fresh : openBrackets w (new g).spine = 0 := by
    obtain ⟨start, hs⟩ := ok.start
    rw [spine_eq (new_stack hs), openBrackets_cons, br.start (Array.mem_of_getElem? hs)]
    rfl
  have read := front.brackets br
  rw [fresh] at read
  obtain ⟨all, linked, same⟩ := through.brackets br (known_fed ok _)
    ((linked_new ok).feedFrom ok (known_new g) _)
  have lower := linked.tail.closed br stated
    (fun f hf => all f (List.mem_cons_of_mem _ (List.mem_cons_of_mem _ hf)))
    (by rw [name]; decide)
  rw [openBrackets_cons, openBrackets_cons, lower, br.start enters.mem, br.flat name] at same
  exact (read.symm.trans same.symm)

end Parser

end Caret

import Caret.Proofs.Agreement
import Caret.Proofs.Cursor
import Caret.Proofs.Cutting
/-!
# Text behind the cursor

Text behind the cursor can move the start of the snippet. It does not where both sources, without
the text and with it, are parsed without recovery and the cursor is in a part of a simple statement
in both of them. Up to the token at the cursor the tokens are the same, so the open frames are the
same before this token. While a part is open its tokens begin no other, so the part that the cursor
is in begins with the same token in both sources.

Results:
* `InPart`: the frames of a part that has been begun, and what entering a rule keeps of it.
* `Through.no_part`: the tokens of a part begin no other one.
* `Part.start_common`: parts of two sources that have the same tokens up to the cursor.
* `Part.cutIn`: a source that is cut off in a leaf of a part.
* `Completion.typesAt_append`: text behind the cursor that leaves what may come next.
-/
namespace Caret

namespace Grammar

variable {g : Grammar}

/-- The rule is entered on a simple statement. -/
def IsPart (g : Grammar) (sub : RuleTable) : Prop :=
  ∃ r s a, r ∈ g.rules ∧ r.name = "simple_stmt" ∧ a ∈ RuleTable.arcs r s ∧ g.Enters a sub

/-- The rules of parts never come back to their first state. -/
def Onward (g : Grammar) : Prop :=
  ∀ {sub : RuleTable} {s : Nat} {a : Arc}, g.IsPart sub → a ∈ sub.arcs s → a.target ≠ 0

theorem python_onward : pythonTables.Onward := by
  have checked : ∀ r ∈ pythonTables.rules.toList, r.name = "simple_stmt" →
      ∀ s < r.states.size, ∀ a ∈ r.arcs s, (pythonTables.entered? a).all (fun sub =>
        sub.states.toList.all fun arcs => arcs.all (·.target != 0)) = true := by
    decide +kernel
  rintro sub s a ⟨r, s', b, hr, name, hb, enters⟩ ha
  have check := checked r (Array.mem_toList_iff.2 hr) name s' (lt_size_of_mem_arcs hb) b hb
  rw [entered?_eq.2 enters, Option.all_some, List.all_eq_true] at check
  simpa using List.all_eq_true.1 (check _ (arcs_mem_states ha)) a ha

end Grammar

namespace Parser

variable {g : Grammar} {T T' : List Token} {label target i i' j j' n : Nat} {t : Token}
  {tree tree' : Tree} {p : Parser} {r r' sub : RuleTable} {x : Outcome × Parser}
  {above below below' spine : List (RuleTable × Nat)} {follow : RuleTable → Nat → Prop}
  {tokens : List Token}

/-- The frames of parts have left the first state. -/
def Begun (g : Grammar) (spine : List (RuleTable × Nat)) : Prop :=
  ∀ f ∈ spine, g.IsPart f.1 → f.2 ≠ 0

theorem Begun.tail (h : Begun g spine) : Begun g spine.tail :=
  fun f hf => h f (List.mem_of_mem_tail hf)

/-- A token that is shifted takes the frame on top out of its first state. -/
theorem Runs.begun {done : Bool} (onward : g.Onward) (h : Runs g label t p x)
    (hx : x.1 = .shifted done) (below : Begun g p.spine.tail) : Begun g x.2.spine := by
  -- an arc takes the frame on top to another state
  have moved {p : Parser} {top : Frame} {rest : List Frame} {a : Arc} (hs : p.stack = top :: rest)
      (ha : a ∈ top.arcs) (below : Begun g p.spine.tail) :
      Begun g ((top.rule, a.target) :: spineOf rest) := by
    rw [spine_eq hs] at below
    exact List.forall_mem_cons.2 ⟨fun part => onward part ha, below⟩
  induction h with
  | complete => cases hx
  | last => cases hx
  | stuck => cases hx
  | @shift p top rest target hs hm =>
    obtain ⟨a, ha, -, rfl⟩ := move?_shift hm
    refine popCompleted_keeps (P := fun q => Begun g q.spine) (fun _ _ h => ?_) ?_
    · rw [spine_pop]
      exact h.tail
    · rw [spine_addLeaf, spine_moveTo hs]
      exact moved hs ha below
  | enter hs hm _ ih =>
    obtain ⟨a, ha, -, -, rfl⟩ := move?_enter hm
    apply ih hx
    rw [spine_push hs]
    exact moved hs ha below
  | close _ _ _ _ _ ih =>
    apply ih hx
    rw [spine_pop]
    exact below.tail

theorem Reads.begun (onward : g.Onward) (h : Reads g p tokens) (begun : Begun g p.spine) :
    Begun g (feedFrom g p tokens).spine := by
  induction h with
  | nil => exact begun
  | cons _ _ _ runs _ ih => exact ih (runs.begun onward rfl (by rw [spine_count]; exact begun.tail))

/-- The outermost frame is not that of a part. -/
theorem begun_new (ok : g.Consistent) (lay : g.Layered) (stated : g.Stated) :
    Begun g (new g).spine := by
  obtain ⟨start, hs⟩ := ok.start
  rw [spine_eq (new_stack hs)]
  intro f hf
  rw [List.mem_singleton.1 hf]
  rintro ⟨r, s, a, known, name, ha, enters⟩
  have inner := (stated.parts known name ha enters).1
  rw [lay.name hs] at inner
  exact absurd (by decide) inner

/-- The frames are inside a simple statement, and the lowest of them is that of a part and has left
its first state. -/
structure InPart (g : Grammar) (above : List (RuleTable × Nat)) : Prop where
  inside : ∀ f ∈ above, f.1 ∈ g.rules ∧ f.1.name ∉ lineRules
  part : ∀ f ∈ above.getLast?, g.IsPart f.1 ∧ f.2 ≠ 0

theorem InPart.tail {f : RuleTable × Nat} (h : InPart g (f :: above)) : InPart g above := by
  refine ⟨fun f' hf => h.inside f' (List.mem_cons_of_mem _ hf), ?_⟩
  have part := h.part
  cases above with
  | nil => simp
  | cons f' above => rwa [List.getLast?_cons_cons] at part

theorem InPart.enter {s : Nat} {a : Arc} (stated : g.Stated) (onward : g.Onward)
    (h : InPart g ((r, s) :: above)) (ha : a ∈ r.arcs s) (enters : g.Enters a sub) :
    InPart g ((sub, 0) :: (r, a.target) :: above) := by
  obtain ⟨known, inner⟩ := h.inside (r, s) List.mem_cons_self
  refine ⟨List.forall_mem_cons.2 ⟨⟨enters.mem, (stated.inline known ha inner).2 _ enters⟩,
    List.forall_mem_cons.2 ⟨⟨known, inner⟩, h.tail.inside⟩⟩, ?_⟩
  rw [List.getLast?_cons_cons]
  have part := h.part
  cases above with
  | nil =>
    rintro f hf
    obtain rfl := Option.some.inj hf
    have own := (part (r, s) rfl).1
    exact ⟨own, onward own ha⟩
  | cons f above =>
    rw [List.getLast?_cons_cons] at part ⊢
    exact part

/-- A token that is refused by the simple statement begins no part while one is open. -/
theorem Through.no_part {s : Nat} (stated : g.Stated) (onward : g.Onward)
    (through : Through g label spine ((sub, 0) :: (r', s) :: below'))
    (hs : spine = above ++ (r, 1) :: below) (refuses : Refuses g label (r, 1))
    (open_ : InPart g above) (statement : r'.name ∈ lineRules) : False := by
  generalize hfinal : (sub, 0) :: (r', s) :: below' = final at through
  induction through generalizing above with
  | refl spine =>
    rw [hs] at hfinal
    match above with
    | [] =>
      obtain ⟨same, -⟩ := List.cons.inj hfinal
      cases same
    | [f] =>
      obtain ⟨rfl, -⟩ := List.cons.inj hfinal
      exact (open_.part _ rfl).2 rfl
    | f :: f' :: above =>
      obtain ⟨-, tail⟩ := List.cons.inj hfinal
      obtain ⟨rfl, -⟩ := List.cons.inj tail
      exact (open_.inside (r', s) (by simp)).2 statement
  | @enter rule sub' state target rest final hm next ih =>
    cases above with
    | nil =>
      obtain ⟨same, -⟩ := List.cons.inj hs
      cases same
      rw [refuses.2] at hm
      cases hm
    | cons f above =>
      obtain ⟨rfl, rfl⟩ := List.cons.inj hs
      obtain ⟨a, ha, enters, -, rfl⟩ := move?_enter hm
      have entered : (sub', 0) :: (rule, a.target) :: (above ++ (r, 1) :: below) =
          ((sub', 0) :: (rule, a.target) :: above) ++ (r, 1) :: below := rfl
      exact ih entered (open_.enter stated onward ha enters) hfinal
  | @close rule state rest final hm accepts next ih =>
    cases above with
    | nil =>
      obtain ⟨same, -⟩ := List.cons.inj hs
      cases same
      rw [refuses.1] at accepts
      cases accepts
    | cons f above =>
      obtain ⟨rfl, rfl⟩ := List.cons.inj hs
      exact ih rfl open_.tail hfinal

/-- The lowest of the frames above a simple statement is that of a part. -/
theorem Linked.last_part {s : Nat} (linked : Linked g (above ++ (r, s) :: below))
    (known : r ∈ g.rules) (name : r.name = "simple_stmt") :
    ∀ f ∈ above.getLast?, g.IsPart f.1 := by
  induction above with
  | nil => simp
  | cons f above ih =>
    cases above with
    | nil =>
      rintro f' hf'
      obtain rfl := Option.some.inj hf'
      cases linked with
      | cons ha enters => exact ⟨r, _, _, known, name, ha, enters⟩
    | cons f' above =>
      rw [List.getLast?_cons_cons]
      exact ih linked.tail

/-- A part that begins at a token is not begun by a token of another part, if the same tokens are
before it. -/
theorem Part.not_inside (ok : g.Consistent) (lay : g.Layered) (ll : g.Predictive follow)
    (stated : g.Stated) (onward : g.Onward) (reads : Reads g (new g) T) (part : Part g T i j tree)
    (part' : Part g T' i' j' tree') (some : i' < j') (upTo : i' ≤ j)
    (same : T.take i' = T'.take i') : ¬ i < i' := by
  intro later
  obtain ⟨r, known, name, above, below, -, spine, -⟩ :=
    part.alike ok ll stated reads later upTo (Eq.refl (((T.take i').drop i).map face))
  have rules := known_fed ok (T.take i')
  have linked : Linked g (fed g (T.take i')).spine :=
    (linked_new ok).feedFrom ok (known_new g) (T.take i')
  have begun : Begun g (fed g (T.take i')).spine := by
    obtain ⟨slice, -⟩ := reads.slice (Nat.zero_le i')
    exact slice.begun onward (begun_new ok lay stated)
  rw [Known, spine] at rules
  rw [spine] at linked begun
  obtain ⟨r', sub, below', s, a, known', name', ha, enters, t, label, token, class_, through⟩ :=
    part'.passes
  rw [← same, spine] at through
  have refuses := part'.refuses stated known name (Nat.le_refl i') some token class_
  have open_ : InPart g above := by
    refine ⟨fun f hf => ⟨rules f (List.mem_append_left _ hf),
      linked.inside stated rules name f hf⟩, fun f hf => ?_⟩
    have part := linked.last_part known name f hf
    exact ⟨part, begun f (List.mem_append_left _ (List.mem_of_getLast? hf)) part⟩
  exact through.no_part stated onward rfl refuses open_ (by rw [name']; decide)

/-- Two parts that begin no later than a token begin alike, if the same tokens are before this one
and it starts in the same place. -/
theorem Part.start_common {u u' : Token} (ok : g.Consistent) (lay : g.Layered)
    (ll : g.Predictive follow) (stated : g.Stated) (onward : g.Onward) (reads : Reads g (new g) T)
    (reads' : Reads g (new g) T') (part : Part g T i j tree) (part' : Part g T' i' j' tree')
    (formed : tree.Formed g) (formed' : tree'.Formed g) (le : i ≤ n) (le' : i' ≤ n) (upTo : n < j)
    (upTo' : n < j') (same : T.take n = T'.take n) (next : T[n]? = some u)
    (next' : T'[n]? = some u') (start : u.start = u'.start) : tree.start = tree'.start := by
  have before {k : Nat} (hk : k ≤ n) : T.take k = T'.take k := by
    rw [← Nat.min_eq_left hk, ← List.take_take, same, List.take_take]
  obtain rfl : i = i' := by
    have notLater := part.not_inside ok lay ll stated onward reads part' (by omega) (by omega)
      (before le')
    have notEarlier := part'.not_inside ok lay ll stated onward reads' part (by omega) (by omega)
      (before le).symm
    omega
  obtain ⟨-, t, first, starts⟩ := part.start_eq formed
  obtain ⟨-, t', first', starts'⟩ := part'.start_eq formed'
  rw [starts, starts']
  rcases Nat.lt_or_eq_of_le le with lt | rfl
  · have token := congrArg (·[i]?) same
    simp only [List.getElem?_take_of_lt lt, first, first', Option.some.injEq] at token
    rw [token]
  · rw [next] at first
    rw [next'] at first'
    cases first
    cases first'
    exact start

/-- A leaf of a part is that of one of its tokens. -/
theorem Part.leaf {l : Leaf} (part : Part g T i j tree) (hl : l ∈ tree.leaves) :
    ∃ m u, i ≤ m ∧ m < j ∧ T[m]? = some u ∧ l = tokenLeaf g u := by
  rw [part.leaves] at hl
  obtain ⟨u, hu, rfl⟩ := List.mem_map.1 hl
  obtain ⟨m, from_, upTo, token⟩ := mem_slice hu
  exact ⟨m, u, from_, upTo, token, rfl⟩

/-- Tokens that are read can be read. -/
theorem Reads.read (plain : g.Plain) (h : Reads g p tokens) : ∀ t ∈ tokens, t.kind ≠ .error := by
  induction h with
  | nil => simp
  | @cons _ t _ label _ _ class_ _ _ _ ih =>
    refine List.forall_mem_cons.2 ⟨fun error => plain label ?_, ih⟩
    rw [classify_token class_ (by rw [error]; decide), error]

/-- A leaf that is a name or a reserved word is that of a name token. -/
theorem kind_of_word (h : (tokenLeaf g t).kind = .name ∨ (tokenLeaf g t).kind = .keyword) :
    t.kind = .name := by
  unfold tokenLeaf leafOf at h
  cases kind : t.kind <;> simp [kind, LeafKind.ofToken] at h ⊢

/-- The front of a source that ends in a leaf of a part, at the end of it or in a word. -/
theorem Part.cutIn {source front : Text} {l : Leaf} (plain : g.Plain) (free : '\r' ∉ source)
    (reads : Reads g (new g) (tokenize (Module.completed source)))
    (part : Part g (tokenize (Module.completed source)) i j tree) (hl : l ∈ tree.leaves)
    (whole : front <+: Module.completed source) (after : l.start < Position.start.advancedBy front)
    (upTo : Position.start.advancedBy front ≤ l.stop)
    (ends : Position.start.advancedBy front = l.stop ∨ l.kind = .name ∨ l.kind = .keyword) :
    ∃ n u x, i ≤ n ∧ n < j ∧ (tokenize (Module.completed source))[n]? = some u ∧
      CutIn front (Module.completed source) ((tokenize (Module.completed source)).take n) u x := by
  obtain ⟨n, u, le, lt, token, rfl⟩ := part.leaf hl
  obtain ⟨u', token', inner, -⟩ := part.inner plain le lt
  rw [token] at token'
  cases token'
  have read (t : Token) (ht : t ∈ (tokenize (Module.completed source)).take n) :
      t.kind ≠ .error := reads.read plain t (List.mem_of_mem_take ht)
  obtain ⟨x, cut⟩ := cutIn_of_lt (Module.completed_free free) (CutAt.split_at token) inner read
    whole after upTo (ends.imp_right kind_of_word)
  exact ⟨n, u, x, le, lt, token, cut⟩

/-- A leaf of a part ends no later than the source, also where a line end had to be added. -/
theorem Part.stop_le {source : Text} {l : Leaf} (ok : g.Consistent) (ll : g.Predictive follow)
    (plain : g.Plain) (stated : g.Stated) (hT : tokenize (Module.completed source) = T)
    (free : '\r' ∉ source) (reads : Reads g (new g) T) (part : Part g T i j tree)
    (hl : l ∈ tree.leaves) : l.start < l.stop ∧ l.stop ≤ Position.start.advancedBy source := by
  obtain ⟨n, u, le, lt, token, rfl⟩ := part.leaf hl
  obtain ⟨body, last, tokens, marker, -⟩ := tokenize_eq (Module.completed source)
  have scanned := tokenize_scanned (Module.completed source)
  have placed := tokenize_placed (Module.completed source)
  have whole := concat_tokenize (Module.completed source)
  have noReturn := Module.completed_free free
  rw [hT] at tokens scanned placed whole
  obtain ⟨u', token', inner, -⟩ := part.inner plain le lt
  rw [token] at token'
  cases token'
  have value := scanned.value_ne_nil noReturn (List.mem_of_getElem? token) inner.not_layout
    fun marker => inner.not_closing (.inr marker)
  refine ⟨Position.lt_advancedBy _ value, ?_⟩
  -- behind the token comes another one that has a text
  obtain ⟨r, known, name, alike⟩ := part.alike ok ll stated reads (Nat.lt_succ_of_le le) lt
    (Eq.refl (((T.take (n + 1)).drop i).map face))
  obtain ⟨v, label, next, -, -, lexeme, before⟩ :=
    part.next ok stated reads tokens marker (Nat.lt_succ_of_le le) lt name alike
  have more := scanned.value_ne_nil noReturn (List.mem_of_getElem? next) lexeme before
  rw [CutAt.split_at next, Token.concat_append, Token.concat_cons] at whole
  obtain ⟨rest, source_eq⟩ := Module.prefix_of_more whole.symm (by simp [more])
  have place := (CutAt.behind token inner).place placed
  rw [List.append_nil] at place
  show u.stop ≤ _
  rw [place, ← source_eq, Position.advancedBy_append]
  exact Position.le_advancedBy _ _

end Parser

namespace Completion

variable {source : Text} {m : Module} {pos : Position} {f : Focus}

theorem startAt_node {g : Grammar} (parsed : Module.parse g source = .ok m)
    (located : locate m pos = .ok (.node f)) : startAt g source pos = .position f.tree.start := by
  rw [startAt, parsed]
  dsimp only
  rw [located]
  rfl

theorem typesAt_stack {g : Grammar} {stack : List Frame} {e : Expected}
    (parsed : Module.parse g source = .ok m) (stacked : stackAt g source m pos = .ok stack)
    (expects : expected g stack = .ok e) : typesAt g source pos = some e := by
  rw [typesAt, parsed]
  show (stackAt g source m pos).toOption.bind (fun stack => (expected g stack).toOption) = some e
  rw [stacked]
  show (expected g stack).toOption = some e
  rw [expects]
  rfl

/-- In sources without carriage returns that are parsed without recovery, one the beginning of the
other, take a part of a simple statement that the shorter one ends with, and the part that the other
one has there. If this place is the end of a token of the longer source, or in a word of it, then
the same may come next there in both. -/
theorem typesAt_append (t s : Text) (free : '\r' ∉ t ++ s) :
    ∃ g m m', Grammar.python = .ok g ∧ Module.parse g t = .ok m ∧
      Module.parse g (t ++ s) = .ok m' ∧
      (Parser.Clean g (.new g) (tokenize (Module.completed t)) →
        Parser.Clean g (.new g) (tokenize (Module.completed (t ++ s))) →
        ∀ f f' : Focus, PartAt m (Position.start.advancedBy t) f →
        PartAt m' (Position.start.advancedBy t) f' →
        ∀ l ∈ f'.tree.leaves, l.start < Position.start.advancedBy t →
        Position.start.advancedBy t = l.stop ∨
          Position.start.advancedBy t ≤ l.stop ∧ (l.kind = .name ∨ l.kind = .keyword) →
        ∃ e, typesAt g t (Position.start.advancedBy t) = some e ∧
          typesAt g (t ++ s) (Position.start.advancedBy t) = some e) := by
  have ok := Grammar.python_consistent
  have lay := Grammar.python_layered
  have ll := Grammar.python_predictive
  have plain := Server.python_plain
  have stated := Grammar.python_stated
  have freeT : '\r' ∉ t := fun h => free (List.mem_append_left _ h)
  obtain ⟨m, parsed, -⟩ := Module.parse_of_layered ok lay t
  obtain ⟨m', parsed', -⟩ := Module.parse_of_layered ok lay (t ++ s)
  refine ⟨_, m, m', Grammar.python_eq, parsed, parsed', ?_⟩
  intro clean clean' f f' at_ at' l hl before reach
  obtain ⟨located, formed, reads, i, j, part⟩ := at_.place parsed clean
  obtain ⟨located', formed', reads', i', j', part'⟩ := at'.place parsed' clean'
  -- the shorter source ends with the last token of its part
  obtain ⟨last, tail, stop⟩ := formed.stop_eq
  have hlast := List.mem_of_getLast? tail
  obtain ⟨wide, within⟩ := part.stop_le ok ll plain stated rfl freeT reads hlast
  have reaches := at_.upTo
  rw [stop] at reaches
  have ends : Position.start.advancedBy t = last.stop := Position.le_antisymm reaches within
  obtain ⟨n, u, x, le, lt, token, cut⟩ := part.cutIn plain freeT reads hlast
    (Module.prefix_completed t) (ends ▸ wide) reaches (.inl ends)
  -- and the longer one has a token there
  have upTo : Position.start.advancedBy t ≤ l.stop :=
    reach.elim (fun same => same ▸ Position.le_refl _) (·.1)
  obtain ⟨n', u', x', le', lt', token', cut'⟩ := part'.cutIn plain free reads' hl
    ((List.prefix_append t s).trans (Module.prefix_completed _)) before upTo (reach.imp_right (·.2))
  -- so the parts begin in the same place
  obtain ⟨same, starts⟩ := tokenize_common cut cut'
  obtain rfl : n = n' := by
    have length := congrArg List.length same
    have short := (List.getElem?_eq_some_iff.1 token).1
    have short' := (List.getElem?_eq_some_iff.1 token').1
    rw [List.length_take, List.length_take] at length
    omega
  have start := part.start_common ok lay ll stated Grammar.python_onward reads reads' part' formed
    formed' le le' lt lt' same token token' starts
  have snippets : startAt Grammar.pythonTables (t ++ s) (Position.start.advancedBy t) =
      startAt Grammar.pythonTables t (Position.start.advancedBy t) := by
    rw [startAt_node parsed located, startAt_node parsed' located', start]
  -- and what may come next in the shorter source is known
  obtain ⟨stack, e, -, -, -, -, stacked, expects, -⟩ :=
    at_.agrees freeT parsed clean hlast (.inr ends)
  have answer := typesAt_stack parsed stacked expects
  have noReturn : t.getLast? ≠ some '\r' := fun h => freeT (List.mem_of_getLast? h)
  exact ⟨e, answer, (typesAt_congr noReturn s snippets).trans answer⟩

/-- In the middle of a name, in an assignment inside a block: behind `ab` an argument list may come,
whether or not the name goes on. -/
theorem typesAt_append_name : ∃ g, Grammar.python = .ok g ∧ ∃ e,
    typesAt g "if x:\n    y = ab".toList ⟨2, 10⟩ = some e ∧
    typesAt g "if x:\n    y = abc(1)\nz\n".toList ⟨2, 10⟩ = some e ∧ .op .lPar ∈ e.kinds := by
  have clean : ∀ source ∈ ["if x:\n    y = ab", "if x:\n    y = abc(1)\nz\n"],
      Parser.Clean Grammar.pythonTables (.new Grammar.pythonTables)
        (tokenize (Module.completed source.toList)) := by
    decide +kernel
  have found : (Module.parse Grammar.pythonTables "if x:\n    y = ab".toList).toOption.any
      (fun m => !(partsAt m ⟨2, 10⟩).isEmpty) = true := by
    decide +kernel
  have found' : (Module.parse Grammar.pythonTables "if x:\n    y = abc(1)\nz\n".toList).toOption.any
      (fun m => (partsAt m ⟨2, 10⟩).any fun f => f.tree.leaves.any fun l =>
        decide (l.start < ⟨2, 10⟩) && decide (⟨2, 10⟩ ≤ l.stop) && l.kind == .name) = true := by
    decide +kernel
  have opens : (typesAt Grammar.pythonTables "if x:\n    y = ab".toList ⟨2, 10⟩).any
      (·.kinds.contains (.op .lPar)) = true := by
    decide +kernel
  obtain ⟨g, m, m', python, parsed, parsed', same⟩ :=
    typesAt_append "if x:\n    y = ab".toList "c(1)\nz\n".toList (by decide)
  obtain rfl : Grammar.pythonTables = g := by
    rw [Grammar.python_eq] at python
    exact Except.ok.inj python
  rw [parsed, Except.toOption, Option.any_some] at found
  obtain ⟨f, hf⟩ := List.exists_mem_of_ne_nil (partsAt m ⟨2, 10⟩) (by simpa using found)
  have whole : "if x:\n    y = abc(1)\nz\n".toList =
      "if x:\n    y = ab".toList ++ "c(1)\nz\n".toList := by
    decide
  rw [whole, parsed', Except.toOption, Option.any_some] at found'
  simp only [List.any_eq_true, Bool.and_eq_true, decide_eq_true_eq, beq_iff_eq] at found'
  obtain ⟨f', hf', l, hl, ⟨before, upTo⟩, name⟩ := found'
  have place : Position.start.advancedBy "if x:\n    y = ab".toList = ⟨2, 10⟩ := by
    decide
  rw [place, ← whole] at same
  obtain ⟨e, short, long⟩ := same (clean _ (by simp)) (clean _ (by simp)) f f' (mem_partsAt hf)
    (mem_partsAt hf') l hl before (.inr ⟨upTo, .inl name⟩)
  rw [short] at opens
  exact ⟨_, python, e, short, long, by simpa using opens⟩

end Completion

end Caret

import Caret.Proofs.Merging
/-!
# The words of a glued automaton

The automaton of a right-hand side is glued together from fragments by silent arcs between ends that
are already there. So what a fragment stands for is not only the words from its entry to its exit:
an operator put around it also sees the words that lead from an end back to the same or the other
end. `Rhs.Leads` keeps track of the four of them; it is what the automaton does, told without
states.

A fragment's states are its own: the states of what it is made of lie in separate ranges, and only
the ends are shared. So a path through a concatenation or an alternative can be cut where it passes
from one part to the other, and a path through an option or a repetition where it takes one of the
silent arcs put around it.

Results:
* `Rhs.Leads`: the words between the ends of a right-hand side.
* `leads_seq`, `leads_alt`, `leads_glued`: one case for each way of gluing.
* `fragment_leads`: the words between the ends of a fragment are those of `Rhs.Leads`.
* `ofRhs_wellFormed`: the arcs of the automaton are between its states.
-/
namespace Caret

/-- The ends of a fragment. -/
inductive Port
  | entry
  | exit
  deriving DecidableEq, Repr

/-- Words between the ends of a fragment, after a silent arc from one end to another was added. -/
inductive Glued (inner : Port → List Text → Port → Prop) (source target : Port) :
    Port → List Text → Port → Prop
  | stay (p : Port) : Glued inner source target p [] p
  | inside {p q r : Port} {v w : List Text} (h : inner p v q)
      (more : Glued inner source target q w r) : Glued inner source target p (v ++ w) r
  | jump {r : Port} {w : List Text} (more : Glued inner source target target w r) :
      Glued inner source target source w r

/-- Words between the ends of the fragment of a right-hand side. The two ends of a star are one. -/
def Rhs.Leads : Rhs → Port → List Text → Port → Prop
  | .label text => fun p w q =>
    match p, q with
    | .entry, .entry => w = []
    | .entry, .exit => w = [text]
    | .exit, .entry => False
    | .exit, .exit => w = []
  | .optional body => Glued body.Leads .entry .exit
  | .plus body => Glued body.Leads .exit .entry
  | .star body => fun _ w _ => Glued body.Leads .exit .entry .entry w .entry
  | .seq first second => fun p w q =>
    match p, q with
    | .entry, .entry => first.Leads .entry w .entry
    | .entry, .exit =>
      ∃ u v, w = u ++ v ∧ first.Leads .entry u .exit ∧ second.Leads .entry v .exit
    | .exit, .entry => False
    | .exit, .exit => second.Leads .exit w .exit
  | .alt first second => fun p w q =>
    match p, q with
    | .entry, .entry => w = []
    | .entry, .exit => first.Leads .entry w .exit ∨ second.Leads .entry w .exit
    | .exit, .entry => False
    | .exit, .exit => w = []

namespace Nfa

variable {nfa part : Nfa} {s t next : Nat} {u v w : List Text}

/-! ## Words that leave a part of an automaton -/

/-- In a part that is not left, words lead to states of the part. -/
theorem Leads.inside (part : Nfa) (D : Nat → Prop)
    (arcs : ∀ a ∈ nfa.arcs, D a.source → a ∈ part.arcs ∧ D a.target) (h : Leads nfa s w t)
    (hs : D s) : D t ∧ Leads part s w t := by
  induction h with
  | refl => exact ⟨hs, .refl _⟩
  | silent arc _ ih =>
    obtain ⟨own, ht⟩ := arcs _ arc hs
    exact (ih ht).imp_right (.silent own)
  | step arc _ ih =>
    obtain ⟨own, ht⟩ := arcs _ arc hs
    exact (ih ht).imp_right (.step own)

/-- A part that is left by one silent arc from `x` to `y`: a word stays in the part, or leads to `x`
and from `y` on. -/
theorem Leads.leaving (part : Nfa) (D : Nat → Prop) {x y : Nat}
    (arcs : ∀ a ∈ nfa.arcs, D a.source → (a ∈ part.arcs ∧ D a.target) ∨ a = ⟨x, none, y⟩)
    (h : Leads nfa s w t) (hs : D s) :
    (D t ∧ Leads part s w t) ∨
      ∃ u v, w = u ++ v ∧ Leads part s u x ∧ Leads nfa y v t := by
  induction h with
  | refl => exact .inl ⟨hs, .refl _⟩
  | silent arc rest ih =>
    rcases arcs _ arc hs with ⟨own, ht⟩ | cross
    · rcases ih ht with ⟨hu, stays⟩ | ⟨u, v, hw, before, behind⟩
      · exact .inl ⟨hu, .silent own stays⟩
      · exact .inr ⟨u, v, hw, .silent own before, behind⟩
    · cases cross
      exact .inr ⟨[], _, rfl, .refl _, rest⟩
  | step arc rest ih =>
    rcases arcs _ arc hs with ⟨own, ht⟩ | cross
    · rcases ih ht with ⟨hu, stays⟩ | ⟨u, v, hw, before, behind⟩
      · exact .inl ⟨hu, .step own stays⟩
      · exact .inr ⟨_ :: u, v, by rw [hw]; rfl, .step own before, behind⟩
    · cases cross

/-- No word leads on from a state that is the source of no arc. -/
theorem Leads.final (arcs : ∀ a ∈ nfa.arcs, a.source ≠ s) (h : Leads nfa s w t) :
    w = [] ∧ s = t := by
  cases h with
  | refl => exact ⟨rfl, rfl⟩
  | silent arc => exact absurd rfl (arcs _ arc)
  | step arc => exact absurd rfl (arcs _ arc)

/-- A part that is left by one silent arc from `x` to `y`, where all words end: a word that leads
out of the part leads to `x` in it. -/
theorem Leads.leavingFor (part : Nfa) (D : Nat → Prop) {x y : Nat}
    (arcs : ∀ a ∈ nfa.arcs, D a.source → (a ∈ part.arcs ∧ D a.target) ∨ a = ⟨x, none, y⟩)
    (final : ∀ a ∈ nfa.arcs, a.source ≠ y) (h : Leads nfa s w t) (hs : D s) (ht : ¬ D t) :
    Leads part s w x ∧ t = y := by
  rcases h.leaving part D arcs hs with ⟨inside, -⟩ | ⟨u, v, rfl, before, behind⟩
  · exact absurd inside ht
  · obtain ⟨rfl, rfl⟩ := behind.final final
    exact ⟨by rwa [List.append_nil], rfl⟩

/-! ## Fragments -/

namespace Fragment

variable (f : Fragment)

/-- The fragment as an automaton. -/
def toNfa : Nfa := ⟨f.next, f.arcs, f.entry, f.exit⟩

def port : Port → Nat
  | .entry => f.entry
  | .exit => f.exit

/-- The states of the fragment are those from `next` up to its own next one. -/
structure Within (next : Nat) : Prop where
  grows : next < f.next
  port : ∀ p, next ≤ f.port p ∧ f.port p < f.next
  arcs : ∀ a ∈ f.arcs, (next ≤ a.source ∧ a.source < f.next) ∧ next ≤ a.target ∧ a.target < f.next

end Fragment

theorem Fragment.Within.ends {f : Fragment} (h : f.Within next) :
    next ≤ f.entry ∧ f.entry < f.next ∧ next ≤ f.exit ∧ f.exit < f.next :=
  ⟨(h.port .entry).1, (h.port .entry).2, (h.port .exit).1, (h.port .exit).2⟩

theorem fragment_within (next : Nat) (rhs : Rhs) : (fragment next rhs).Within next := by
  induction rhs generalizing next with
  | label text =>
    refine ⟨by simp [fragment], fun p => ?_, fun a ha => ?_⟩
    · cases p <;> simp [fragment, Fragment.port]
    · rw [List.mem_singleton.1 ha]; simp [fragment]
  | optional body ih | plus body ih =>
    obtain ⟨e, e', x, x'⟩ := (ih next).ends
    refine ⟨(ih next).grows, fun p => (ih next).port p, fun a ha => ?_⟩
    rcases List.mem_cons.1 ha with rfl | ha
    · simp only [fragment]; omega
    · exact (ih next).arcs a ha
  | star body ih =>
    obtain ⟨e, e', x, x'⟩ := (ih next).ends
    refine ⟨(ih next).grows, fun p => ?_, fun a ha => ?_⟩
    · cases p <;> exact ⟨e, e'⟩
    · rcases List.mem_cons.1 ha with rfl | ha
      · simp only [fragment]; omega
      · exact (ih next).arcs a ha
  | seq first second ihf ihs =>
    have hf := ihf next
    have hs := ihs (fragment next first).next
    obtain ⟨e, e', x, x'⟩ := hf.ends
    obtain ⟨d, d', y, y'⟩ := hs.ends
    have := hf.grows
    have := hs.grows
    refine ⟨by simp only [fragment]; omega, fun p => ?_, fun a ha => ?_⟩
    · cases p <;> simp only [fragment, Fragment.port] <;> omega
    · simp only [fragment, List.mem_cons, List.mem_append] at ha ⊢
      rcases ha with rfl | ha | ha
      · dsimp only; omega
      · have := hf.arcs a ha; omega
      · have := hs.arcs a ha; omega
  | alt first second ihf ihs =>
    have hf := ihf next
    have hs := ihs (fragment next first).next
    obtain ⟨e, e', x, x'⟩ := hf.ends
    obtain ⟨d, d', y, y'⟩ := hs.ends
    have := hf.grows
    have := hs.grows
    refine ⟨by simp only [fragment]; omega, fun p => ?_, fun a ha => ?_⟩
    · cases p <;> simp only [fragment, Fragment.port] <;> omega
    · simp only [fragment, List.mem_cons, List.mem_append] at ha ⊢
      rcases ha with rfl | rfl | rfl | rfl | ha | ha
      · dsimp only; omega
      · dsimp only; omega
      · dsimp only; omega
      · dsimp only; omega
      · have := hf.arcs a ha; omega
      · have := hs.arcs a ha; omega

theorem ofRhs_wellFormed (rhs : Rhs) : (ofRhs rhs).WellFormed := by
  have within := fragment_within 0 rhs
  exact ⟨(within.port .entry).2, (within.port .exit).2,
    fun a ha => ⟨(within.arcs a ha).1.2, (within.arcs a ha).2.2⟩⟩

/-- Adding a silent arc between two ends glues the words between the ends. -/
theorem leads_glued (f : Fragment) (source target : Port) {p q : Port}
    (arcs : nfa.arcs = ⟨f.port source, none, f.port target⟩ :: f.arcs) :
    Leads nfa (f.port p) w (f.port q) ↔
      Glued (fun p w q => Leads f.toNfa (f.port p) w (f.port q)) source target p w q := by
  constructor
  · -- a word from any state leads to some end by old arcs, and is glued from there on
    have split {s : Nat} (h : Leads nfa s w (f.port q)) : ∃ r u v, w = u ++ v ∧
        Leads f.toNfa s u (f.port r) ∧
        Glued (fun p w q => Leads f.toNfa (f.port p) w (f.port q)) source target r v q := by
      generalize ht : f.port q = t at h
      induction h with
      | refl => exact ⟨q, [], [], rfl, ht ▸ .refl _, .stay q⟩
      | silent arc _ ih =>
        obtain ⟨r, u, v, hw, before, glued⟩ := ih ht
        rw [arcs] at arc
        rcases List.mem_cons.1 arc with new | old
        · cases new
          exact ⟨source, [], _, rfl, .refl _, .jump (hw ▸ .inside before glued)⟩
        · exact ⟨r, u, v, hw, .silent old before, glued⟩
      | step arc _ ih =>
        obtain ⟨r, u, v, hw, before, glued⟩ := ih ht
        rw [arcs] at arc
        rcases List.mem_cons.1 arc with new | old
        · cases new
        · exact ⟨r, _ :: u, v, by rw [hw]; rfl, .step old before, glued⟩
    intro h
    obtain ⟨r, u, v, rfl, before, glued⟩ := split h
    exact .inside before glued
  · intro h
    induction h with
    | stay => exact .refl _
    | inside h _ ih =>
      exact (h.mono (by rw [arcs]; exact List.subset_cons_self _ _)).append ih
    | jump _ ih => exact .silent (by rw [arcs]; exact List.mem_cons_self) ih

theorem Glued.congr {inner inner' : Port → List Text → Port → Prop} {source target p q : Port}
    (h : ∀ p w q, inner p w q ↔ inner' p w q) :
    Glued inner source target p w q ↔ Glued inner' source target p w q := by
  have : inner = inner' := by funext p w q; exact propext (h p w q)
  rw [this]

/-- Between two parts that follow each other, words cross from the first to the second only. -/
theorem leads_seq (nfa : Nfa) {f g : Fragment} (hf : f.Within next) (hg : g.Within f.next)
    (arcs : nfa.arcs = ⟨f.exit, none, g.entry⟩ :: (f.arcs ++ g.arcs)) :
    (∀ p q, Leads nfa (f.port p) w (f.port q) ↔ Leads f.toNfa (f.port p) w (f.port q)) ∧
    (∀ p q, Leads nfa (f.port p) w (g.port q) ↔ ∃ u v, w = u ++ v ∧
      Leads f.toNfa (f.port p) u f.exit ∧ Leads g.toNfa g.entry v (g.port q)) ∧
    (∀ p q, ¬ Leads nfa (g.port p) w (f.port q)) ∧
    (∀ p q, Leads nfa (g.port p) w (g.port q) ↔ Leads g.toNfa (g.port p) w (g.port q)) := by
  have mono₁ : f.toNfa.arcs ⊆ nfa.arcs := by
    intro a ha; rw [arcs]; exact List.mem_cons_of_mem _ (List.mem_append_left _ ha)
  have mono₂ : g.toNfa.arcs ⊆ nfa.arcs := by
    intro a ha; rw [arcs]; exact List.mem_cons_of_mem _ (List.mem_append_right _ ha)
  have cross : ⟨f.exit, none, g.entry⟩ ∈ nfa.arcs := by rw [arcs]; exact List.mem_cons_self
  have second {s t : Nat} {w : List Text} (h : Leads nfa s w t) (hs : f.next ≤ s) :
      f.next ≤ t ∧ Leads g.toNfa s w t := by
    refine h.inside g.toNfa (f.next ≤ ·) (fun a ha hsource => ?_) hs
    rw [arcs, List.mem_cons, List.mem_append] at ha
    rcases ha with rfl | ha | ha
    · have := hf.ends; dsimp only at hsource; omega
    · have := hf.arcs a ha; omega
    · exact ⟨ha, (hg.arcs a ha).2.1⟩
  have first {s t : Nat} (h : Leads nfa s w t) (hs : s < f.next) :
      (t < f.next ∧ Leads f.toNfa s w t) ∨ ∃ u v, w = u ++ v ∧ Leads f.toNfa s u f.exit ∧
        f.next ≤ t ∧ Leads g.toNfa g.entry v t := by
    have split := h.leaving f.toNfa (· < f.next) (x := f.exit) (y := g.entry)
      (fun a ha hsource => ?_) hs
    · exact split.imp_right fun ⟨u, v, hw, before, behind⟩ =>
        ⟨u, v, hw, before, second behind (hg.port .entry).1⟩
    · rw [arcs, List.mem_cons, List.mem_append] at ha
      rcases ha with rfl | ha | ha
      · exact .inr rfl
      · exact .inl ⟨ha, (hf.arcs a ha).2.2⟩
      · have := hg.arcs a ha; omega
  refine ⟨fun p q => ⟨fun h => ?_, .mono mono₁⟩, fun p q => ⟨fun h => ?_, ?_⟩, fun p q h => ?_,
    fun p q => ⟨fun h => (second h (hg.port p).1).2, .mono mono₂⟩⟩
  · rcases first h (hf.port p).2 with ⟨-, stays⟩ | ⟨-, -, -, -, ht, -⟩
    · exact stays
    · have := (hf.port q).2; omega
  · rcases first h (hf.port p).2 with ⟨ht, -⟩ | ⟨u, v, hw, before, -, behind⟩
    · have := (hg.port q).1; omega
    · exact ⟨u, v, hw, before, behind⟩
  · rintro ⟨u, v, rfl, before, behind⟩
    exact (before.mono mono₁).append (.silent cross (behind.mono mono₂))
  · have := (second h (hg.port p).1).1
    have := (hf.port q).2
    omega

/-- A fragment with a silent arc to its entry and another one from its exit. -/
theorem Leads.around {f : Fragment} {x y : Nat} (own : f.arcs ⊆ nfa.arcs)
    (enter : ⟨x, none, f.entry⟩ ∈ nfa.arcs) (leave : ⟨f.exit, none, y⟩ ∈ nfa.arcs)
    (h : Leads f.toNfa f.entry w f.exit) : Leads nfa x w y := by
  have out : Leads nfa f.exit [] y := .silent leave (.refl y)
  have through := Leads.silent enter (Leads.append (h.mono own) out)
  rwa [List.append_nil] at through

/-- Between two parts side by side, a word stays in the part it enters. -/
theorem leads_alt (nfa : Nfa) {f g : Fragment} {x y : Nat} (hf : f.Within next)
    (hg : g.Within f.next) (hx : g.next ≤ x) (hy : g.next ≤ y) (ht : g.next ≤ t) (hxy : x ≠ y)
    (arcs : nfa.arcs = ⟨x, none, f.entry⟩ :: ⟨x, none, g.entry⟩ :: ⟨f.exit, none, y⟩ ::
      ⟨g.exit, none, y⟩ :: (f.arcs ++ g.arcs)) :
    (Leads nfa x w t ↔ (w = [] ∧ x = t) ∨
      (t = y ∧ (Leads f.toNfa f.entry w f.exit ∨ Leads g.toNfa g.entry w g.exit))) ∧
    (Leads nfa y w t ↔ w = [] ∧ y = t) := by
  have grows := hg.grows
  have endsf := hf.ends
  have endsg := hg.ends
  have mem {a : Arc} : a ∈ nfa.arcs ↔ a = ⟨x, none, f.entry⟩ ∨ a = ⟨x, none, g.entry⟩ ∨
      a = ⟨f.exit, none, y⟩ ∨ a = ⟨g.exit, none, y⟩ ∨ a ∈ f.arcs ∨ a ∈ g.arcs := by
    rw [arcs]; simp only [List.mem_cons, List.mem_append]
  -- the arcs by their sources: the states of both parts, `x`, and no other
  have sources {a : Arc} (ha : a ∈ nfa.arcs) :
      (a.source = x ∧ (a = ⟨x, none, f.entry⟩ ∨ a = ⟨x, none, g.entry⟩)) ∨
      (a.source < f.next ∧ ((a ∈ f.arcs ∧ a.target < f.next) ∨ a = ⟨f.exit, none, y⟩)) ∨
      (f.next ≤ a.source ∧ a.source < g.next ∧
        ((a ∈ g.arcs ∧ f.next ≤ a.target ∧ a.target < g.next) ∨ a = ⟨g.exit, none, y⟩)) := by
    rcases mem.1 ha with rfl | rfl | rfl | rfl | ha | ha
    · exact .inl ⟨rfl, .inl rfl⟩
    · exact .inl ⟨rfl, .inr rfl⟩
    · exact .inr (.inl ⟨(hf.port .exit).2, .inr rfl⟩)
    · exact .inr (.inr ⟨(hg.port .exit).1, (hg.port .exit).2, .inr rfl⟩)
    · exact .inr (.inl ⟨(hf.arcs a ha).1.2, .inl ⟨ha, (hf.arcs a ha).2.2⟩⟩)
    · exact .inr (.inr ⟨(hg.arcs a ha).1.1, (hg.arcs a ha).1.2, .inl ⟨ha, (hg.arcs a ha).2⟩⟩)
  have final : ∀ a ∈ nfa.arcs, a.source ≠ y := by
    intro a ha hsource
    rcases sources ha with ⟨h, -⟩ | ⟨h, -⟩ | ⟨-, h, -⟩ <;> omega
  have first (h : Leads nfa f.entry w t) : Leads f.toNfa f.entry w f.exit ∧ t = y := by
    refine h.leavingFor f.toNfa (· < f.next) (fun a ha hsource => ?_) final (hf.port .entry).2
      (by omega)
    rcases sources ha with ⟨h, -⟩ | ⟨-, h⟩ | ⟨h, -⟩
    · omega
    · exact h
    · omega
  have second (h : Leads nfa g.entry w t) : Leads g.toNfa g.entry w g.exit ∧ t = y := by
    refine h.leavingFor g.toNfa (fun s => f.next ≤ s ∧ s < g.next) (fun a ha hsource => ?_) final
      (hg.port .entry) (by omega)
    rcases sources ha with ⟨h, -⟩ | ⟨h, -⟩ | ⟨-, -, h⟩
    · omega
    · omega
    · exact h
  refine ⟨⟨fun h => ?_, ?_⟩, ⟨fun h => h.final final, fun ⟨hw, hy⟩ => hw ▸ hy ▸ .refl y⟩⟩
  · -- from `x` a word ends there or enters one of the parts
    have enters {a : Arc} (ha : a ∈ nfa.arcs) (hsource : a.source = x) :
        a = ⟨x, none, f.entry⟩ ∨ a = ⟨x, none, g.entry⟩ := by
      rcases sources ha with ⟨-, h⟩ | ⟨h, -⟩ | ⟨-, h, -⟩
      · exact h
      · omega
      · omega
    cases h with
    | refl => exact .inl ⟨rfl, rfl⟩
    | silent arc h =>
      rcases enters arc rfl with heq | heq <;> cases heq
      · exact .inr ((first h).symm.imp_right .inl)
      · exact .inr ((second h).symm.imp_right .inr)
    | step arc => rcases enters arc rfl with heq | heq <;> cases heq
  · rintro (⟨rfl, rfl⟩ | ⟨rfl, h | h⟩)
    · exact .refl x
    · exact h.around (fun a ha => mem.2 (by simp [ha])) (mem.2 (by simp)) (mem.2 (by simp))
    · exact h.around (fun a ha => mem.2 (by simp [ha])) (mem.2 (by simp)) (mem.2 (by simp))

theorem leads_label (nfa : Nfa) {x y : Nat} {text : Text} (hxy : x ≠ y)
    (arcs : nfa.arcs = [⟨x, some text, y⟩]) :
    (Leads nfa x w t ↔ (w = [] ∧ x = t) ∨ (w = [text] ∧ y = t)) ∧
    (Leads nfa y w t ↔ w = [] ∧ y = t) := by
  have fromY {v : List Text} (h : Leads nfa y v t) : v = [] ∧ y = t := by
    refine h.final fun a ha => ?_
    rw [arcs, List.mem_singleton] at ha
    rwa [ha]
  refine ⟨⟨fun h => ?_, ?_⟩, ⟨fromY, fun ⟨hw, hy⟩ => hw ▸ hy ▸ .refl y⟩⟩
  · cases h with
    | refl => exact .inl ⟨rfl, rfl⟩
    | silent arc => rw [arcs, List.mem_singleton] at arc; cases arc
    | step arc rest =>
      rw [arcs, List.mem_singleton] at arc
      cases arc
      obtain ⟨rfl, rfl⟩ := fromY rest
      exact .inr ⟨rfl, rfl⟩
  · rintro (⟨rfl, rfl⟩ | ⟨rfl, rfl⟩)
    · exact .refl x
    · exact .step (by rw [arcs]; exact List.mem_cons_self) (.refl y)

/-- The words between the ends of a fragment. -/
theorem fragment_leads (next : Nat) (rhs : Rhs) (p : Port) (w : List Text) (q : Port) :
    Leads (fragment next rhs).toNfa ((fragment next rhs).port p) w ((fragment next rhs).port q) ↔
      rhs.Leads p w q := by
  induction rhs generalizing next p w q with
  | label text =>
    obtain ⟨entry, exit⟩ := leads_label (w := w) (fragment next (.label text)).toNfa
      (t := (fragment next (.label text)).port q) (Nat.ne_of_lt (Nat.lt_succ_self next)) rfl
    cases p with
    | entry => cases q <;> exact entry.trans (by simp [Rhs.Leads, fragment, Fragment.port])
    | exit => cases q <;> exact exit.trans (by simp [Rhs.Leads, fragment, Fragment.port])
  | optional body ih =>
    refine (leads_glued (fragment next body) .entry .exit rfl).trans ?_
    exact Glued.congr (ih next)
  | plus body ih =>
    refine (leads_glued (fragment next body) .exit .entry rfl).trans ?_
    exact Glued.congr (ih next)
  | star body ih =>
    have ends (r : Port) :
        (fragment next (.star body)).port r = (fragment next body).port .entry := by
      cases r <;> rfl
    rw [ends, ends]
    refine (leads_glued (fragment next body) .exit .entry rfl).trans ?_
    exact Glued.congr (ih next)
  | seq first second ihf ihs =>
    obtain ⟨stays, crosses, never, ends⟩ := leads_seq (w := w)
      (fragment next (.seq first second)).toNfa (fragment_within next first)
      (fragment_within (fragment next first).next second) rfl
    cases p with
    | entry =>
      cases q with
      | entry => exact (stays .entry .entry).trans (ihf next .entry w .entry)
      | exit =>
        refine (crosses .entry .exit).trans ?_
        exact exists₂_congr fun u v => and_congr_right fun _ =>
          and_congr (ihf next .entry u .exit) (ihs _ .entry v .exit)
    | exit =>
      cases q with
      | entry => exact iff_of_false (never .exit .entry) id
      | exit => exact (ends .exit .exit).trans (ihs _ .exit w .exit)
  | alt first second ihf ihs =>
    have hf := fragment_within next first
    have hg := fragment_within (fragment next first).next second
    have bound : ∀ r, (fragment (fragment next first).next second).next ≤
        (fragment next (.alt first second)).port r := by
      intro r; cases r <;> simp [fragment, Fragment.port]
    obtain ⟨entry, exit⟩ := leads_alt (w := w)
      (fragment next (.alt first second)).toNfa hf hg (bound .entry) (bound .exit) (bound q)
      (by simp [fragment, Fragment.port]) rfl
    cases p with
    | entry =>
      cases q with
      | entry => exact entry.trans (by simp [Rhs.Leads, fragment, Fragment.port])
      | exit =>
        have parts :=
          or_congr (ihf next .entry w .exit) (ihs (fragment next first).next .entry w .exit)
        refine entry.trans (Iff.trans ?_ parts)
        simp [fragment, Fragment.port]
    | exit => cases q <;> exact exit.trans (by simp [Rhs.Leads, fragment, Fragment.port])

end Nfa

end Caret

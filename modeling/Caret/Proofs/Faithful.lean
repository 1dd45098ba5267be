import Caret.Proofs.Gluing
/-!
# Where the automaton says what the notation says

Every word that a right-hand side stands for leads through its fragment. The other direction can
fail. A word that leads from the entry back to the entry is no word of `x`, and yet `[x]` is over as
soon as it is entered, and `x*` whenever it comes back to its entry: in `[x* y]` and in `(x* y)*`
the repetition of `x` is left halfway. Nothing of the kind happens where what stands in the
brackets, or in front of the star, has no such words or is a repetition as a whole.

Results:
* `Rhs.faithful`: what stands in brackets, or in front of a star, is as said above.
* `Rhs.Denotes.leads`: every word that a right-hand side stands for leads through.
* `Rhs.Leads.denotes`: if the right-hand side is faithful, no other word does.
* `CompiledRule.accepts_iff_leads`: the compiled states accept what leads through.
* `CompiledRule.accepts_iff_denotes`: the compiled states of a faithful right-hand side accept what
  it stands for.
-/
namespace Caret

/-- Words between the ends, some arcs glued: either no glued arc is taken, or a first stretch leads
to it, whole rounds lead to it again, and a last stretch leads on. -/
theorem Glued.rounds {inner : Port → List Text → Port → Prop} {source target p q : Port}
    {w : List Text} (refl : ∀ p, inner p [] p)
    (trans : ∀ {p q r u v}, inner p u q → inner q v r → inner p (u ++ v) r)
    (h : Glued inner source target p w q) :
    inner p w q ∨ ∃ (first : List Text) (rounds : List (List Text)) (last : List Text),
      w = first ++ (rounds.flatten ++ last) ∧
      inner p first source ∧ (∀ x ∈ rounds, inner target x source) ∧ inner target last q := by
  induction h with
  | stay p => exact .inl (refl p)
  | inside h _ ih =>
    rcases ih with ih | ⟨first, rounds, last, rfl, hf, hr, hl⟩
    · exact .inl (trans h ih)
    · exact .inr ⟨_, rounds, last, (List.append_assoc ..).symm, trans h hf, hr, hl⟩
  | jump _ ih =>
    rcases ih with ih | ⟨first, rounds, last, rfl, hf, hr, hl⟩
    · exact .inr ⟨[], [], _, rfl, refl source, List.forall_mem_nil _, ih⟩
    · refine .inr ⟨[], first :: rounds, last, ?_, refl source, ?_, hl⟩
      · rw [List.flatten_cons, List.append_assoc, List.nil_append]
      · exact List.forall_mem_cons.2 ⟨hf, hr⟩

namespace Rhs

variable {rhs body : Rhs} {p q r : Port} {v w : List Text}

theorem leads_refl (rhs : Rhs) (p : Port) : rhs.Leads p [] p :=
  (Nfa.fragment_leads 0 rhs p [] p).1 (.refl _)

theorem Leads.append (h : rhs.Leads p v q) (h' : rhs.Leads q w r) : rhs.Leads p (v ++ w) r :=
  (Nfa.fragment_leads 0 rhs p _ r).1
    (((Nfa.fragment_leads 0 rhs p v q).2 h).append ((Nfa.fragment_leads 0 rhs q w r).2 h'))

theorem rounds_of_glued {source target : Port} (h : Glued body.Leads source target p w q) :
    body.Leads p w q ∨ ∃ (first : List Text) (rounds : List (List Text)) (last : List Text),
      w = first ++ (rounds.flatten ++ last) ∧
      body.Leads p first source ∧ (∀ x ∈ rounds, body.Leads target x source) ∧
      body.Leads target last q :=
  h.rounds body.leads_refl Leads.append

/-- Every word that a right-hand side stands for leads through. -/
theorem Denotes.leads (h : rhs.Denotes w) : rhs.Leads .entry w .exit := by
  -- a word taken as it is, before anything glued
  have alone {inner : Port → List Text → Port → Prop} {source target p q : Port} {w : List Text}
      (h : inner p w q) : Glued inner source target p w q := by
    have : Glued inner source target p (w ++ []) q := .inside h (.stay q)
    rwa [List.append_nil] at this
  induction h with
  | label text => exact rfl
  | absent body => exact Glued.jump (.stay .exit)
  | present _ ih => exact alone ih
  | once _ ih => exact alone ih
  | again _ _ ih more => exact Glued.inside ih (.jump more)
  | none body => exact Glued.stay .entry
  | more _ _ ih more => exact Glued.inside ih (.jump more)
  | seq _ _ ihf ihs => exact ⟨_, _, rfl, ihf, ihs⟩
  | left _ ih => exact .inl ih
  | right _ ih => exact .inr ih

/-! ## Words of a repetition -/

theorem Denotes.starOnce (h : body.Denotes w) : (star body).Denotes w := by
  have := Denotes.more h (.none body)
  rwa [List.append_nil] at this

theorem Denotes.starAppend (h : (star body).Denotes v) (h' : (star body).Denotes w) :
    (star body).Denotes (v ++ w) := by
  generalize hr : star body = rhs at h
  induction h with
  | none => cases hr; exact h'
  | more h _ _ ih =>
    cases hr
    rw [List.append_assoc]
    exact .more h (ih rfl)
  | _ => cases hr

theorem Denotes.starFlatten {ws : List (List Text)} (h : ∀ w ∈ ws, (star body).Denotes w) :
    (star body).Denotes ws.flatten := by
  induction ws with
  | nil => exact .none body
  | cons w ws ih =>
    obtain ⟨hw, hws⟩ := List.forall_mem_cons.1 h
    exact hw.starAppend (ih hws)

/-- A repetition of words that are themselves repetitions. -/
theorem Denotes.starLift {other : Rhs} (lift : ∀ {v}, other.Denotes v → (star body).Denotes v)
    (h : (star other).Denotes w) : (star body).Denotes w := by
  generalize hr : star other = rhs at h
  induction h with
  | none => exact .none body
  | more h _ _ ih => cases hr; exact (lift h).starAppend (ih rfl)
  | _ => cases hr

theorem Denotes.star_of_plus (h : (plus body).Denotes w) : (star body).Denotes w := by
  generalize hr : plus body = rhs at h
  induction h with
  | once h => cases hr; exact h.starOnce
  | again h _ _ ih => cases hr; exact .more h (ih rfl)
  | _ => cases hr

/-- A repetition that is not empty has a first round. -/
theorem Denotes.plus_of_star (h : (star body).Denotes w) : (plus body).Denotes w ∨ w = [] := by
  generalize hr : star body = rhs at h
  induction h with
  | none => exact .inr rfl
  | more h _ _ ih =>
    cases hr
    rcases ih rfl with more | rfl
    · exact .inl (.again h more)
    · rw [List.append_nil]
      exact .inl (.once h)
  | _ => cases hr

theorem Denotes.star_of_optional (h : (optional body).Denotes w) : (star body).Denotes w := by
  cases h with
  | absent => exact .none body
  | present h => exact h.starOnce

/-! ## Faithful right-hand sides -/

/-- A word that is not empty may lead from the end back to it. -/
def loops : Rhs → Port → Bool
  | .label _ | .alt _ _ => fun _ => false
  | .optional body => body.loops
  | .plus _ | .star _ => fun _ => true
  | .seq first second => fun
    | .entry => first.loops .entry
    | .exit => second.loops .exit

/-- A repetition of it is the same again, or nothing. -/
def repeats : Rhs → Bool
  | .label _ | .seq _ _ | .alt _ _ => false
  | .optional body => body.repeats
  | .plus _ | .star _ => true

/-- Words that lead from any end to any end repeat the words from entry to exit. -/
def separate : Rhs → Bool
  | .label _ | .alt _ _ | .star _ => true
  | .optional body | .plus body => body.separate
  | .seq first second => !first.loops .entry && !second.loops .exit

/-- Nothing is left halfway: what is optional has no stray words at its ends, and what a star
repeats has none at its entry. -/
def faithful : Rhs → Bool
  | .label _ => true
  | .optional body => body.faithful && body.separate
  | .plus body => body.faithful
  | .star body => body.faithful && (body.separate || !body.loops .entry)
  | .seq first second | .alt first second => first.faithful && second.faithful

/-- If there is an end that no word leads back to, no word leads from the exit to the entry. -/
theorem not_leads_back (h : rhs.loops p = false) : ¬ rhs.Leads .exit w .entry := by
  induction rhs generalizing w with
  | label | seq | alt => exact id
  | plus | star => cases h
  | optional body ih =>
    intro leads
    rcases rounds_of_glued leads with leads | ⟨_, _, _, -, leads, -, -⟩
    · exact ih h leads
    · exact ih h leads

theorem leads_eq_nil (h : rhs.loops p = false) (leads : rhs.Leads p w p) : w = [] := by
  induction rhs generalizing p w with
  | label | alt => cases p <;> exact leads
  | plus | star => cases h
  | seq first second ihf ihs =>
    cases p with
    | entry => exact ihf h leads
    | exit => exact ihs h leads
  | optional body ih =>
    rcases rounds_of_glued leads with leads | ⟨first, rounds, last, -, hf, -, hl⟩
    · exact ih h leads
    · -- the arc leads from the entry to the exit, and nothing leads back
      cases p with
      | entry => exact absurd hl (not_leads_back h)
      | exit => exact absurd hf (not_leads_back h)

theorem repeats_or_loops (h : rhs.separate) : rhs.repeats ∨ ∀ p, rhs.loops p = false := by
  induction rhs with
  | label | alt => exact .inr fun _ => rfl
  | plus | star => exact .inl rfl
  | optional body ih => exact ih h
  | seq first second =>
    obtain ⟨hf, hs⟩ : first.loops .entry = false ∧ second.loops .exit = false := by
      simpa [separate] using h
    exact .inr fun p => by cases p <;> assumption

theorem Denotes.of_repeats (h : body.repeats) (hw : (star body).Denotes w) :
    body.Denotes w ∨ w = [] := by
  induction body generalizing w with
  | label | seq | alt => cases h
  | star body => exact .inl (hw.starLift id)
  | plus body => exact (hw.starLift Denotes.star_of_plus).plus_of_star
  | optional body ih => exact (ih h (hw.starLift Denotes.star_of_optional)).imp_left .present

/-- Pieces that are repetitions make up a repetition. -/
theorem star_of_glued {source target : Port}
    (inner : ∀ {p q w}, body.Leads p w q → (star body).Denotes w)
    (h : Glued body.Leads source target p w q) : (star body).Denotes w := by
  induction h with
  | stay => exact .none body
  | inside h _ ih => exact (inner h).starAppend ih
  | jump _ ih => exact ih

/-- If no words are left at its ends, a right-hand side in brackets is present as a whole or not. -/
theorem optional_of_glued (loops : ∀ p, body.loops p = false)
    (through : ∀ {w}, body.Leads .entry w .exit → body.Denotes w)
    (h : Glued body.Leads .entry .exit .entry w .exit) : (optional body).Denotes w := by
  rcases rounds_of_glued h with leads | ⟨first, rounds, last, rfl, hf, hr, hl⟩
  · exact .present (through leads)
  · obtain rfl := leads_eq_nil (loops .entry) hf
    obtain rfl := leads_eq_nil (loops .exit) hl
    have none : rounds = [] :=
      List.eq_nil_iff_forall_not_mem.2 fun x hx => not_leads_back (loops .entry) (hr x hx)
    rw [none]
    exact .absent body

/-- Whole rounds, and whatever the last stretch is, if it is a repetition or nothing. -/
theorem star_of_rounds (through : ∀ {w}, body.Leads .entry w .exit → body.Denotes w)
    (last : ∀ {w}, body.Leads .entry w q → (star body).Denotes w)
    (h : Glued body.Leads .exit .entry .entry w q) : (star body).Denotes w := by
  rcases rounds_of_glued h with leads | ⟨first, rounds, rest, rfl, hf, hr, hl⟩
  · exact last leads
  · have whole : (star body).Denotes rounds.flatten :=
      .starFlatten fun x hx => (through (hr x hx)).starOnce
    exact .more (through hf) (whole.starAppend (last hl))

theorem plus_of_rounds (through : ∀ {w}, body.Leads .entry w .exit → body.Denotes w)
    (h : Glued body.Leads .exit .entry .entry w .exit) : (plus body).Denotes w := by
  rcases rounds_of_glued h with leads | ⟨first, rounds, last, rfl, hf, hr, hl⟩
  · exact .once (through leads)
  · have whole : (star body).Denotes rounds.flatten :=
      .starFlatten fun x hx => (through (hr x hx)).starOnce
    have rest := whole.starAppend (through hl).starOnce
    rcases rest.plus_of_star with more | none
    · exact .again (through hf) more
    · rw [none, List.append_nil]
      exact .once (through hf)

/-- What a right-hand side must do for those built from it to be read right. -/
structure ReadsRight (rhs : Rhs) : Prop where
  through : ∀ {w}, rhs.Leads .entry w .exit → rhs.Denotes w
  around : rhs.separate → ∀ {p q w}, rhs.Leads p w q → (star rhs).Denotes w

/-- If no words are left at the ends, the words between them are all there is. -/
theorem star_of_ends (loops : ∀ p, rhs.loops p = false)
    (through : ∀ {w}, rhs.Leads .entry w .exit → rhs.Denotes w) (h : rhs.Leads p w q) :
    (star rhs).Denotes w := by
  cases p <;> cases q
  · obtain rfl := leads_eq_nil (loops .entry) h
    exact .none rhs
  · exact (through h).starOnce
  · exact absurd h (not_leads_back (loops .entry))
  · obtain rfl := leads_eq_nil (loops .exit) h
    exact .none rhs

theorem readsRight_of_faithful (faithful : rhs.faithful) : rhs.ReadsRight := by
  induction rhs with
  | label text =>
    have through {w : List Text} (h : (label text).Leads .entry w .exit) :
        (label text).Denotes w := by
      obtain rfl : w = [text] := h
      exact .label text
    exact ⟨through, fun _ => star_of_ends (fun _ => rfl) through⟩
  | alt first second ihf ihs =>
    obtain ⟨hf, hs⟩ := Bool.and_eq_true_iff.1 faithful
    have through {w : List Text} (h : (alt first second).Leads .entry w .exit) :
        (alt first second).Denotes w :=
      h.elim (fun h => .left ((ihf hf).through h)) (fun h => .right ((ihs hs).through h))
    exact ⟨through, fun _ => star_of_ends (fun _ => rfl) through⟩
  | seq first second ihf ihs =>
    obtain ⟨hf, hs⟩ := Bool.and_eq_true_iff.1 faithful
    have through {w : List Text} (h : (seq first second).Leads .entry w .exit) :
        (seq first second).Denotes w := by
      obtain ⟨u, v, rfl, hu, hv⟩ := h
      exact .seq ((ihf hf).through hu) ((ihs hs).through hv)
    refine ⟨through, fun separate => star_of_ends ?_ through⟩
    exact (repeats_or_loops separate).resolve_left Bool.false_ne_true
  | optional body ih =>
    obtain ⟨faithful, separate⟩ := Bool.and_eq_true_iff.1 faithful
    have inner {p q : Port} {w : List Text} (h : body.Leads p w q) : (star body).Denotes w :=
      (ih faithful).around separate h
    refine ⟨fun h => ?_, fun _ {p q w} h => (star_of_glued inner h).starLift
      fun h => (Denotes.present h).starOnce⟩
    rcases repeats_or_loops separate with repeats | loops
    · rcases Denotes.of_repeats repeats (star_of_glued inner h) with present | rfl
      · exact .present present
      · exact .absent body
    · exact optional_of_glued loops (ih faithful).through h
  | plus body ih =>
    refine ⟨plus_of_rounds (ih faithful).through, fun separate {p q w} h => ?_⟩
    exact (star_of_glued ((ih faithful).around separate) h).starLift
      fun h => (Denotes.once h).starOnce
  | star body ih =>
    obtain ⟨faithful, ends⟩ := Bool.and_eq_true_iff.1 faithful
    have last {w : List Text} (h : body.Leads .entry w .entry) : (star body).Denotes w := by
      rcases Bool.or_eq_true_iff.1 ends with separate | loops
      · exact (ih faithful).around separate h
      · obtain rfl : w = [] := leads_eq_nil (by simpa using loops) h
        exact .none body
    have through {w : List Text} (h : (star body).Leads .entry w .exit) : (star body).Denotes w :=
      star_of_rounds (ih faithful).through last h
    exact ⟨through, fun _ {_ _ _} h => (through h).starOnce⟩

/-- If a right-hand side is faithful, only the words that it stands for lead through. -/
theorem Leads.denotes (faithful : rhs.faithful) (h : rhs.Leads .entry w .exit) : rhs.Denotes w :=
  (readsRight_of_faithful faithful).through h

end Rhs

namespace CompiledRule

variable {rule : Rule} {w : List Text}

theorem accepts_iff_leads : Dfa.Accepts (ofRule rule).states w ↔ rule.rhs.Leads .entry w .exit := by
  refine Dfa.accepts_simplify.trans ((Dfa.accepts_ofNfa (Nfa.ofRhs_wellFormed _)).trans ?_)
  exact Nfa.fragment_leads 0 rule.rhs .entry w .exit

/-- The compiled states accept every word of their rule. -/
theorem accepts_of_denotes (h : rule.rhs.Denotes w) : Dfa.Accepts (ofRule rule).states w :=
  accepts_iff_leads.2 h.leads

/-- The compiled states of a faithful rule accept the words of the rule. -/
theorem accepts_iff_denotes (faithful : rule.rhs.faithful) :
    Dfa.Accepts (ofRule rule).states w ↔ rule.rhs.Denotes w :=
  ⟨fun h => (accepts_iff_leads.1 h).denotes faithful, accepts_of_denotes⟩

end CompiledRule

end Caret

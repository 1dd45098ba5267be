import Caret.Proofs.FirstSets
/-!
# The rules that a description holds

The pieces of a line are signs, words that start as words do, and literals with a quote at each end
and none between. A rule is named by a word, and no two rules of a description have one name.

Results:
* `pieces_proper`: what the words and literals among the pieces of a line look like.
* `gather_proper`: so for all rules of a description.
* `rules_named`: rules are named by words, and their names are different.
-/
namespace Caret.Description

/-- The text starts as a word does. -/
def StartsWord (text : Text) : Prop := text.head?.any isWordStart = true

/-- Quotes around characters that are no quotes. -/
def Quoted (text : Text) : Prop := ∃ inside, '\'' ∉ inside ∧ text = '\'' :: (inside ++ ['\''])

/-- A word starts as words do, and a literal is quoted. -/
def Proper : Piece → Prop
  | .word text => StartsWord text
  | .literal text => Quoted text
  | .sign _ => True

/-- So far the piece being read is as it should be. -/
def Open.Proper : Open → Prop
  | .nothing => True
  | .literal read => ∃ inside, '\'' ∉ inside ∧ read.reverse = '\'' :: inside
  | .word read => StartsWord read.reverse

theorem startsWord_reverse_cons {c : Char} {read : Text} (h : StartsWord read.reverse) :
    StartsWord (c :: read).reverse := by
  unfold StartsWord at *
  rw [List.reverse_cons, List.head?_append]
  cases hr : read.reverse.head? with
  | none => rw [hr] at h; cases h
  | some d => rw [hr] at h; exact h

theorem pieces_proper {state : Open} {done ps : List Piece} {text : Text} (hs : state.Proper)
    (hd : ∀ p ∈ done, Proper p) (h : pieces state done text = .ok ps) : ∀ p ∈ ps, Proper p := by
  induction text generalizing state done with
  | nil =>
    unfold pieces at h
    cases state with
    | nothing => cases h; simpa using hd
    | literal read => cases h
    | word read =>
      cases h
      have all : ∀ p ∈ Piece.word read.reverse :: done, Proper p :=
        List.forall_mem_cons.2 ⟨hs, hd⟩
      exact fun p hp => all p (List.mem_reverse.1 hp)
  | cons c rest ih =>
    -- a character outside words and literals opens the next piece
    have fresh {done : List Piece} (hd : ∀ p ∈ done, Proper p)
        (h : (if Text.isBlank c then pieces .nothing done rest
          else if isSign c then pieces .nothing (.sign c :: done) rest
          else if c = '\'' then pieces (.literal [c]) done rest
          else if isWordStart c then pieces (.word [c]) done rest
          else .error (.unexpectedCharacter c)) = .ok ps) : ∀ p ∈ ps, Proper p := by
      split at h
      · exact ih (show Open.nothing.Proper from trivial) hd h
      split at h
      · have sign : Proper (.sign c) := trivial
        exact ih (show Open.nothing.Proper from trivial) (List.forall_mem_cons.2 ⟨sign, hd⟩) h
      split at h
      · next quote =>
        have opened : (Open.literal [c]).Proper := ⟨[], by simp, by simp [quote]⟩
        exact ih opened hd h
      split at h
      · next hc =>
        have word : (Open.word [c]).Proper := by simpa [Open.Proper, StartsWord] using hc
        exact ih word hd h
      · cases h
    unfold pieces at h
    cases state with
    | nothing => exact fresh hd h
    | literal read =>
      obtain ⟨inside, plain, hread⟩ := hs
      dsimp only at h
      split at h
      · next quote =>
        have closed : Proper (.literal (c :: read).reverse) :=
          ⟨inside, plain, by rw [List.reverse_cons, hread, quote, List.cons_append]⟩
        exact ih (show Open.nothing.Proper from trivial) (List.forall_mem_cons.2 ⟨closed, hd⟩) h
      · next other =>
        have opened : (Open.literal (c :: read)).Proper := by
          refine ⟨inside ++ [c], ?_, by rw [List.reverse_cons, hread, List.cons_append]⟩
          simpa [plain] using Ne.symm other
        exact ih opened hd h
    | word read =>
      dsimp only at h
      split at h
      · exact ih (show (Open.word _).Proper from startsWord_reverse_cons hs) hd h
      · have word : Proper (.word read.reverse) := hs
        exact fresh (List.forall_mem_cons.2 ⟨word, hd⟩) h

theorem extendLast_proper {more : List Piece} {rules rules' : List RuleText}
    (hm : ∀ p ∈ more, Proper p) (hr : ∀ r ∈ rules, ∀ p ∈ r.pieces, Proper p)
    (h : extendLast more rules = some rules') : ∀ r ∈ rules', ∀ p ∈ r.pieces, Proper p := by
  induction rules generalizing rules' with
  | nil => cases h
  | cons rule rest ih =>
    cases rest with
    | nil =>
      cases h
      intro r hr'
      rw [List.mem_singleton.1 hr']
      exact List.forall_mem_append.2 ⟨hr rule List.mem_cons_self, hm⟩
    | cons next rest =>
      rw [extendLast, Option.map_eq_some_iff] at h
      · obtain ⟨rest', h, rfl⟩ := h
        intro r hr'
        rcases List.mem_cons.1 hr' with rfl | hr'
        · exact hr r List.mem_cons_self
        · exact ih (fun r hr' => hr r (List.mem_cons_of_mem _ hr')) h r hr'
      · simp

theorem gather_proper {line : Nat} {rules rules' : List RuleText} {lines : List Text}
    (hr : ∀ r ∈ rules, ∀ p ∈ r.pieces, Proper p) (h : gather line rules lines = .ok rules') :
    ∀ r ∈ rules', ∀ p ∈ r.pieces, Proper p := by
  induction lines generalizing line rules with
  | nil => cases h; exact hr
  | cons raw lines ih =>
    rw [gather] at h
    split at h
    · exact ih hr h
    split at h
    · cases h
    next found hf =>
    have proper : ∀ p ∈ found, Proper p :=
      pieces_proper (show Open.nothing.Proper from trivial) (by simp) hf
    split at h
    · split at h
      · next hx => exact ih (extendLast_proper proper hr hx) h
      · cases h
    · refine ih (fun r hr' => ?_) h
      rcases List.mem_append.1 hr' with hr' | hr'
      · exact hr r hr'
      · rw [List.mem_singleton.1 hr']; exact proper

theorem readRule_name {ps : List Piece} {rule : Rule} (hp : ∀ p ∈ ps, Proper p)
    (h : readRule ps = .ok rule) : StartsWord rule.name := by
  unfold readRule at h
  split at h
  · next name ps =>
    obtain ⟨_, -, h⟩ := Except.bind_ok.1 h
    obtain ⟨⟨rhs, ps⟩, -, h⟩ := Except.bind_ok.1 h
    dsimp only at h
    split at h
    · cases h; exact hp (.word name) List.mem_cons_self
    · cases h
  · cases h

theorem readRules_named {rules rules' : List Rule} {texts : List RuleText}
    (hp : ∀ t ∈ texts, ∀ p ∈ t.pieces, Proper p) (hr : ∀ r ∈ rules, StartsWord r.name)
    (hd : (rules.map (·.name)).Nodup) (h : readRules rules texts = .ok rules') :
    (∀ r ∈ rules', StartsWord r.name) ∧ (rules'.map (·.name)).Nodup := by
  induction texts generalizing rules with
  | nil => cases h; exact ⟨hr, hd⟩
  | cons text texts ih =>
    rw [readRules] at h
    split at h
    · cases h
    next rule hrule =>
    split at h
    · cases h
    next fresh =>
    refine ih (fun t ht => hp t (List.mem_cons_of_mem _ ht)) (fun r hr' => ?_) ?_ h
    · rcases List.mem_append.1 hr' with hr' | hr'
      · exact hr r hr'
      · rw [List.mem_singleton.1 hr']
        exact readRule_name (hp text List.mem_cons_self) hrule
    · rw [List.map_append, List.nodup_append]
      refine ⟨hd, by simp, ?_⟩
      intro a ha b hb
      obtain ⟨r, hr', rfl⟩ := List.mem_map.1 ha
      simp only [List.map_cons, List.map_nil, List.mem_singleton] at hb
      subst hb
      simp only [List.any_eq_true, beq_iff_eq, not_exists, not_and] at fresh
      exact fresh r hr'

/-- The rules of a description are named by words, and their names are different. -/
theorem rules_named {lines : List Text} {rs : List Rule} (h : rules lines = .ok rs) :
    (∀ r ∈ rs, StartsWord r.name) ∧ (rs.map (·.name)).Nodup := by
  obtain ⟨texts, hg, h⟩ := Except.bind_ok.1 h
  exact readRules_named (gather_proper (by simp) hg) (by simp) (by simp) h

end Caret.Description

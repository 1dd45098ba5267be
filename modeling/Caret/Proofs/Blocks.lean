import Caret.Proofs.Scanning
/-!
# Blocks open and close in pairs

The scanner keeps the margins of the open blocks, on top of the margin 0 of the source, which stays.
A block opens where a margin is put on them and closes where one is taken off, so no block closes
that is not open, and at the end of the source all are closed.

Results:
* `blocksAfter`: how many blocks are open after some tokens; none if one closes that is not open.
* `blocksAfter_round`: a round opens and closes the blocks that its margins say.
* `blocksAfter_tokenize`: the tokens of a source close all blocks that they open.
-/
namespace Caret

/-- How many blocks are open after a token of this type; none if it closes one that is not open. -/
def blockAfter (n : Nat) : TokenKind → Option Nat
  | .indent => some (n + 1)
  | .dedent => if n = 0 then none else some (n - 1)
  | _ => some n

/-- How many blocks are open after these tokens; none if one closes that is not open. -/
def blocksAfter (n : Nat) (tokens : List Token) : Option Nat :=
  tokens.foldlM (fun n t => blockAfter n t.kind) n

variable {n k : Nat} {t : Token} {ts us : List Token}

theorem blocksAfter_cons (n : Nat) (t : Token) (ts : List Token) :
    blocksAfter n (t :: ts) = (blockAfter n t.kind).bind (blocksAfter · ts) := List.foldlM_cons

theorem blocksAfter_append (n : Nat) (ts us : List Token) :
    blocksAfter n (ts ++ us) = (blocksAfter n ts).bind (blocksAfter · us) := List.foldlM_append

theorem blockAfter_other {kind : TokenKind} (h : kind ≠ .indent) (h' : kind ≠ .dedent) :
    blockAfter n kind = some n := by
  unfold blockAfter
  split
  · exact absurd rfl h
  · exact absurd rfl h'
  · rfl

theorem blocksAfter_replicate (ht : t.kind = .dedent) :
    blocksAfter (n + k) (List.replicate k t) = some n := by
  induction k with
  | zero => rfl
  | succ k ih =>
    rw [List.replicate_succ, blocksAfter_cons, ht]
    exact ih

namespace Scanner

/-- The margin 0 of the source stays below the margins of the open blocks. -/
theorem layout_margins {margins : List Nat} (h : margins.getLast? = some 0) (width : Nat)
    (at_ : Position) :
    blocksAfter (margins.length - 1) (layout margins width at_).1 =
        some ((layout margins width at_).2.length - 1) ∧
      (layout margins width at_).2.getLast? = some 0 := by
  have nonempty : margins ≠ [] := by rintro rfl; cases h
  have long := List.length_pos_iff.2 nonempty
  unfold layout
  split
  · refine ⟨?_, ?_⟩
    · show some (margins.length - 1 + 1) = some (margins.length + 1 - 1)
      congr 1
      omega
    · rw [List.getLast?_cons, h]
      rfl
  · dsimp only
    have kept : (margins.dropWhile (width < ·)).getLast? = some 0 := by
      obtain ⟨front, rfl⟩ := List.getLast?_eq_some_iff.1 h
      rw [List.dropWhile_append]
      split
      · rfl
      · exact List.getLast?_concat
    have some_left : 0 < (margins.dropWhile (width < ·)).length := by
      rw [List.length_pos_iff]
      intro none
      rw [none] at kept
      cases kept
    have shorter := (List.dropWhile_sublist (l := margins) (width < ·)).length_le
    have count : margins.length - 1 = (margins.dropWhile (width < ·)).length - 1 +
        (margins.length - (margins.dropWhile (width < ·)).length) := by omega
    exact ⟨by rw [count]; exact blocksAfter_replicate rfl, kept⟩

/-- A round opens and closes the blocks that its margins say, and the last round closes them all. -/
theorem blocksAfter_round {s : Scanner} (h : s.margins.getLast? = some 0) :
    blocksAfter (s.margins.length - 1) s.round.tokens = some (s.round.next.margins.length - 1) ∧
      s.round.next.margins.getLast? = some 0 ∧
      (s.round.ended = true → s.round.next.margins.length = 1) := by
  have opened : blocksAfter (s.margins.length - 1) s.approach.blocks =
      some (s.approach.margins.length - 1) ∧ s.approach.margins.getLast? = some 0 := by
    rcases s.approach_blocks with ⟨none, same⟩ | ⟨-, width, _, -, blocks, margins⟩
    · rw [none, same]
      exact ⟨rfl, h⟩
    · rw [blocks, margins]
      exact layout_margins h width _
  cases hrest : s.approach.rest with
  | nil =>
    obtain ⟨front, hfront⟩ := List.getLast?_eq_some_iff.1 opened.2
    have left : s.approach.margins.drop (s.approach.margins.length - 1) = [0] := by
      rw [hfront, List.length_append, List.length_singleton, Nat.add_sub_cancel, List.drop_left]
    have closed := blocksAfter_replicate (n := 0) (k := s.approach.margins.length - 1)
      (t := layoutToken .dedent s.approach.start) rfl
    rw [Nat.zero_add] at closed
    rw [round_last hrest]
    dsimp only
    rw [left]
    refine ⟨?_, rfl, fun _ => rfl⟩
    rw [List.append_assoc, blocksAfter_append, opened.1, Option.bind_some, blocksAfter_append,
      closed]
    rfl
  | cons c rest =>
    obtain ⟨noIndent, noDedent, -⟩ := lexeme_kind c rest
    rw [round_lexeme hrest]
    refine ⟨?_, opened.2, fun ended => (by cases ended)⟩
    rw [blocksAfter_append, opened.1, Option.bind_some, blocksAfter_cons,
      blockAfter_other noIndent noDedent]
    rfl

theorem blocksAfter_tokens {n : Nat} {s : Scanner} (h : s.margins.getLast? = some 0)
    (rounds : s.rest.length < n) : blocksAfter (s.margins.length - 1) (s.tokens n) = some 0 := by
  induction n generalizing s with
  | zero => omega
  | succ n ih =>
    obtain ⟨blocks, bottom, closed⟩ := blocksAfter_round h
    rw [tokens]
    split
    · next ended => rw [blocks, closed ended]
    · next goesOn =>
      have shorter := round_shortens (by simpa using goesOn)
      rw [blocksAfter_append, blocks, Option.bind_some]
      exact ih bottom (by omega)

end Scanner

/-- The tokens of a source close the blocks that they open, and no others. -/
theorem blocksAfter_tokenize (text : Text) : blocksAfter 0 (tokenize text) = some 0 :=
  Scanner.blocksAfter_tokens (s := Scanner.ofText text) rfl (Nat.lt_succ_self _)

end Caret

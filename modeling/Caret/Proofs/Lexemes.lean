import Mathlib.Data.List.TakeWhile
import Caret.Proofs.Scanning
/-!
# Lexemes in a part of a text

A lexeme is found by looking at what follows, but not at more than it takes to tell where the lexeme
ends. So in a part of the text that holds it the same lexeme is found, unless it is what is left of
a literal that does not close. No lexeme ends with a space or a tab.

Results:
* `Stable`: what is counted at the front of a text is the same in every part that holds it.
* `Solid`: what is counted are characters that are no blanks and break no line.
* `Numeral.stable_length`, `StringLiteral.extent_front`, `Operator.atFront?_front`: numbers,
  literals and operators in a part of a text.
* `Scanner.lexeme_front`: lexemes in a part of a text.
* `Scanner.lexeme_last`: no lexeme ends with a space or a tab.
-/
namespace Caret

/-! ## Counting at the front of a text -/

/-- What is counted at the front of a text is the same in every part of the text that holds it. -/
def Stable (count : Text → Nat) : Prop :=
  ∀ p q : Text, count (p ++ q) ≤ p.length → count p = count (p ++ q)

theorem takeWhile_front {accept : Char → Bool} {p q : Text}
    (le : ((p ++ q).takeWhile accept).length ≤ p.length) :
    p.takeWhile accept = (p ++ q).takeWhile accept := by
  induction p with
  | nil => exact (List.length_eq_zero_iff.1 (Nat.le_zero.1 le)).symm
  | cons c p ih =>
    rw [List.cons_append, List.takeWhile_cons] at le ⊢
    rw [List.takeWhile_cons]
    split
    · next yes =>
      rw [if_pos yes, List.length_cons, List.length_cons] at le
      rw [ih (by omega)]
    · rfl

variable {f f' : Text → Nat}

/-- What is counted first, and what is counted behind it. -/
theorem stable_next (h : Stable f) (h' : Stable f') :
    Stable fun text => f text + f' (text.drop (f text)) := by
  intro p q le
  dsimp only at le ⊢
  have first := h p q (by omega)
  rw [← first, List.drop_append_of_le_length (by omega)] at le ⊢
  rw [h' (p.drop (f p)) q (by rw [List.length_drop]; omega)]

/-- Blanks and line breaks. -/
def hollow : List Char := [' ', '\t', '\n', '\r']

/-- The character is no blank and breaks no line. -/
def IsSolid (c : Char) : Prop := c ∉ hollow

instance (c : Char) : Decidable (IsSolid c) :=
  inferInstanceAs (Decidable (c ∉ hollow))

/-- The characters that are counted at the front of a text are there, and they are solid. -/
def Solid (count : Text → Nat) : Prop :=
  ∀ (text : Text) (k : Nat), k < count text → ∃ c, text[k]? = some c ∧ IsSolid c

theorem IsSolid.visible {c : Char} (h : IsSolid c) : c ≠ ' ' ∧ c ≠ '\t' := by
  constructor <;> (rintro rfl; exact h (by decide))

/-- What is not accepted of blanks and line breaks is accepted of solid characters only. -/
theorem isSolid_of_accept {accept : Char → Bool} {c : Char} (none : hollow.any accept = false)
    (h : accept c = true) : IsSolid c := by
  intro blank
  exact List.any_eq_false.1 none c blank h

theorem solid_next (h : Solid f) (h' : Solid f') :
    Solid fun text => f text + f' (text.drop (f text)) := by
  intro text k hk
  by_cases front : k < f text
  · exact h text k front
  · have behind := h' (text.drop (f text)) (k - f text) (by dsimp only at hk; omega)
    rwa [List.getElem?_drop, Nat.add_sub_cancel' (Nat.le_of_not_lt front)] at behind

theorem solid_runLength {accept : Char → Bool} (none : hollow.any accept = false) :
    Solid (Numeral.runLength accept) := by
  intro text k hk
  have found := List.getElem?_eq_getElem hk
  have yes := List.mem_takeWhile_imp (List.mem_of_getElem? found)
  obtain ⟨rest, whole⟩ := List.takeWhile_prefix accept (l := text)
  have same : (text.takeWhile accept ++ rest)[k]? = _ := List.getElem?_append_left hk
  rw [whole, found] at same
  exact ⟨_, same, isSolid_of_accept none yes⟩

/-- A character in front of what is counted. -/
theorem solid_cons {d : Char} {n k : Nat} {text : Text} (first : IsSolid d)
    (h : ∀ k, k < n → ∃ c, text[k]? = some c ∧ IsSolid c) (hk : k < n + 1) :
    ∃ c, (d :: text)[k]? = some c ∧ IsSolid c := by
  cases k with
  | zero => exact ⟨d, rfl, first⟩
  | succ k => exact h k (by omega)

/-! ## Numbers -/

namespace Numeral

theorem stable_runLength (accept : Char → Bool) : Stable (runLength accept) :=
  fun _ _ le => congrArg List.length (takeWhile_front le)

theorem stable_fractionLength : Stable fractionLength := by
  intro p q le
  cases p with
  | nil => exact (Nat.le_zero.1 le).symm
  | cons c p =>
    by_cases point : c = '.'
    · subst point
      simp only [List.cons_append, fractionLength, List.length_cons] at le ⊢
      rw [stable_runLength isDigitOrMark p q (by omega)]
    · simp [fractionLength, point]

theorem stable_imaginaryLength : Stable imaginaryLength := by
  intro p q le
  cases p with
  | nil => exact (Nat.le_zero.1 le).symm
  | cons c p =>
    by_cases mark : c = 'j' ∨ c = 'J'
    · rcases mark with rfl | rfl <;> rfl
    · rw [not_or] at mark
      simp [imaginaryLength, mark]

/-- The length of an exponent, given its mark, the length of the sign and the text behind them. -/
def exponentBehind (mark : Char) (sign : Nat) (digits : Text) : Nat :=
  if (mark = 'e' ∨ mark = 'E') ∧ digits.head?.any Char.isDigit then
    1 + sign + runLength isDigitOrMark digits
  else 0

theorem exponentLength_cons (mark : Char) (rest : Text) :
    exponentLength (mark :: rest) =
      if rest.head? = some '+' ∨ rest.head? = some '-' then exponentBehind mark 1 rest.tail
      else exponentBehind mark 0 rest := by
  unfold exponentLength exponentBehind
  cases rest with
  | nil => simp
  | cons d rest =>
    by_cases plus : d = '+'
    · simp [plus]
    · by_cases minus : d = '-'
      · simp [minus]
      · rw [if_neg (by simp [plus, minus])]
        dsimp only
        split
        · next h => exact absurd (List.cons.inj h).1 plus
        · next h => exact absurd (List.cons.inj h).1 minus
        · rfl

theorem stable_exponentBehind (mark : Char) {sign : Nat} {p q : Text}
    (le : exponentBehind mark sign (p ++ q) ≤ 1 + sign + p.length) :
    exponentBehind mark sign p = exponentBehind mark sign (p ++ q) := by
  unfold exponentBehind at *
  cases p with
  | nil =>
    have none : ¬ ((mark = 'e' ∨ mark = 'E') ∧ q.head?.any Char.isDigit = true) := by
      rintro ⟨hm, digit⟩
      cases q with
      | nil => simp at digit
      | cons d q =>
        have some : 0 < runLength isDigitOrMark (d :: q) := by
          simp [runLength, isDigitOrMark, show d.isDigit = true by simpa using digit]
        rw [List.nil_append, if_pos ⟨hm, digit⟩, List.length_nil] at le
        omega
    rw [List.nil_append, if_neg none, if_neg (by simp)]
  | cons d p =>
    rw [List.cons_append, List.head?_cons] at le ⊢
    rw [List.head?_cons]
    split
    · next h =>
      rw [if_pos h] at le
      rw [stable_runLength isDigitOrMark (d :: p) q (by rw [List.cons_append]; omega),
        List.cons_append]
    · rfl

theorem stable_exponentLength : Stable exponentLength := by
  intro p q le
  cases p with
  | nil => exact (Nat.le_zero.1 le).symm
  | cons mark p =>
    rw [List.cons_append, exponentLength_cons] at le ⊢
    rw [exponentLength_cons]
    cases p with
    | nil =>
      have none : exponentBehind mark 0 [] = 0 := by simp [exponentBehind]
      have sign : exponentBehind mark 1 [] = 0 := by simp [exponentBehind]
      rw [List.nil_append] at le ⊢
      split at le
      · next signed =>
        rw [if_pos signed, if_neg (by simp), none, ← sign]
        exact stable_exponentBehind mark (Nat.le_trans le (by simp))
      · next plain =>
        rw [if_neg plain, if_neg (by simp)]
        exact stable_exponentBehind mark (Nat.le_trans le (by simp))
    | cons d p =>
      rw [List.cons_append, List.head?_cons, List.tail_cons] at le ⊢
      rw [List.head?_cons, List.tail_cons]
      split
      · next signed =>
        rw [if_pos signed] at le
        exact stable_exponentBehind mark (Nat.le_trans le (by simp only [List.length_cons]; omega))
      · next plain =>
        rw [if_neg plain, ← List.cons_append] at le
        exact stable_exponentBehind mark (Nat.le_trans le (by simp only [List.length_cons]; omega))

theorem stable_decimalLength : Stable decimalLength := by
  have behind := stable_next stable_exponentLength stable_imaginaryLength
  have all :=
    stable_next (stable_runLength isDigitOrMark) (stable_next stable_fractionLength behind)
  intro p q le
  simp only [decimalLength, Nat.add_assoc] at le ⊢
  exact all p q le

theorem length_cons (c d : Char) (rest : Text) :
    length (c :: d :: rest) = if c = '0' ∧ isBaseMark d = true then
      2 + runLength (fun c => c.isAlphanum || c == '_') rest
    else decimalLength (c :: d :: rest) := by
  by_cases zero : c = '0'
  · subst zero
    simp [length]
  · simp [length, zero]

theorem stable_length : Stable length := by
  intro p q le
  cases p with
  | nil => exact (Nat.le_zero.1 le).symm
  | cons c p =>
    have alone : length [c] = decimalLength [c] := by
      unfold length
      split
      · next h => cases h
      · rfl
    cases p with
    | nil =>
      cases q with
      | nil => rfl
      | cons d q =>
        rw [List.singleton_append, length_cons] at le ⊢
        split at le
        · simp only [List.length_singleton] at le
          omega
        · next base =>
          rw [alone, if_neg base]
          exact stable_decimalLength [c] (d :: q) le
    | cons d p =>
      rw [List.cons_append, List.cons_append, length_cons] at le ⊢
      rw [length_cons]
      split
      · next base =>
        rw [if_pos base, List.length_cons, List.length_cons] at le
        rw [stable_runLength _ p q (by omega)]
      · next base =>
        rw [if_neg base] at le
        exact stable_decimalLength (c :: d :: p) q le

theorem startsAt_append {p q : Text} (h : startsAt p = true) : startsAt (p ++ q) = true := by
  match p with
  | [] => cases h
  | [c] =>
    have digit : c.isDigit = true := by simpa [startsAt] using h
    simp [startsAt, digit]
  | c :: d :: p => exact h

/-- A number has its first digit in every part of the text that holds it. -/
theorem startsAt_front {p q : Text} (h : startsAt (p ++ q) = true)
    (le : length (p ++ q) ≤ p.length) : startsAt p = true := by
  match p with
  | [] =>
    have := length_pos h
    rw [List.length_nil] at le
    omega
  | [c] =>
    by_cases digit : c.isDigit = true
    · simp [startsAt, digit]
    · obtain ⟨d, q, rfl, rfl, digit'⟩ : ∃ d rest, c = '.' ∧ q = d :: rest ∧ d.isDigit = true := by
        cases q with
        | nil => simp [startsAt, digit] at h
        | cons d q => exact ⟨d, q, by simpa [startsAt, digit] using h⟩
      have two : 2 ≤ decimalLength ('.' :: d :: q) := by
        simp [decimalLength, fractionLength, runLength, isDigitOrMark, digit']
        omega
      rw [List.singleton_append, length_cons, if_neg (by simp), List.length_singleton] at le
      omega
  | c :: d :: p => exact h

theorem solid_digits : Solid (runLength isDigitOrMark) :=
  solid_runLength (by decide)

theorem solid_fractionLength : Solid fractionLength := by
  intro text k hk
  unfold fractionLength at hk
  split at hk
  · next rest =>
    rw [Nat.add_comm] at hk
    exact solid_cons (by decide) (solid_digits rest) hk
  · cases hk

theorem solid_exponentLength : Solid exponentLength := by
  intro text k hk
  cases text with
  | nil => cases hk
  | cons mark rest =>
    rw [exponentLength_cons] at hk
    unfold exponentBehind at hk
    split at hk
    · next signed =>
      split at hk
      · next marked =>
        obtain ⟨sign, digits, rfl, plain⟩ : ∃ sign digits, rest = sign :: digits ∧
            IsSolid sign := by
          rcases signed with h | h <;> obtain ⟨digits, rfl⟩ := List.head?_eq_some_iff.1 h
          · exact ⟨_, digits, rfl, by decide⟩
          · exact ⟨_, digits, rfl, by decide⟩
        rw [List.tail_cons, show ∀ n, 1 + 1 + n = n + 1 + 1 by omega] at hk
        refine solid_cons ?_ (fun k hk => solid_cons plain (solid_digits digits) hk) hk
        rcases marked.1 with rfl | rfl <;> decide
      · cases hk
    · split at hk
      · next marked =>
        rw [show ∀ n, 1 + 0 + n = n + 1 by omega] at hk
        refine solid_cons ?_ (solid_digits rest) hk
        rcases marked.1 with rfl | rfl <;> decide
      · cases hk

theorem solid_imaginaryLength : Solid imaginaryLength := by
  intro text k hk
  unfold imaginaryLength at hk
  split at hk
  · exact solid_cons (n := 0) (by decide) (fun k hk => by cases hk) hk
  · exact solid_cons (n := 0) (by decide) (fun k hk => by cases hk) hk
  · cases hk

theorem solid_length : Solid length := by
  have decimal : Solid decimalLength := by
    have behind := solid_next solid_exponentLength solid_imaginaryLength
    have all := solid_next solid_digits (solid_next solid_fractionLength behind)
    intro text k hk
    simp only [decimalLength, Nat.add_assoc] at hk
    exact all text k hk
  intro text k hk
  unfold length at hk
  split at hk
  · next mark rest =>
    split at hk
    · next base =>
      rw [Nat.add_comm] at hk
      have plain : IsSolid mark := isSolid_of_accept (by decide) base
      exact solid_cons (by decide) (fun k hk => solid_cons plain
        (solid_runLength (by decide) rest) hk) hk
    · exact decimal _ k hk
  · exact decimal _ k hk

end Numeral

/-! ## String literals -/

namespace StringLiteral

variable {quote c : Char} {p q rest : Text} {read n : Nat}

/-- The character is no backslash that takes the next one with it. -/
def Plain (c : Char) (rest : Text) : Prop := ∀ d more, c = '\\' → rest = d :: more → False

/-- Nor is it one in a longer text, unless it is a backslash at the end of the shorter. -/
theorem Plain.append (h : Plain c rest)
    (escape : ∀ d more, rest = [] → q = d :: more → c = '\\' → False) : Plain c (rest ++ q) := by
  intro d more backslash split
  cases rest with
  | nil => exact escape d more rfl split backslash
  | cons e rest => exact h e rest backslash rfl

theorem closeAt_cons (h : Plain c rest) : closeAt quote (c :: rest) read =
    if c = '\n' ∨ c = '\r' then none
    else if c = quote then some (read + 1) else closeAt quote rest (read + 1) := by
  rw [closeAt]
  exact h

theorem closeAt_front (h : closeAt quote (p ++ q) read = some n) (le : n ≤ read + p.length) :
    closeAt quote p read = some n := by
  have plain {c : Char} {rest : Text} {read : Nat} (plain : Plain c rest)
      (closes : closeAt quote (c :: rest ++ q) read = some n)
      (le : n ≤ read + (c :: rest).length) : Plain c (rest ++ q) := by
    refine plain.append fun d more none longer backslash => ?_
    rw [none, longer, backslash] at closes
    have later : closeAt quote more (read + 2) = some n := closes
    have := lt_of_closeAt later
    simp only [none, List.length_singleton] at le
    omega
  fun_induction closeAt quote p read with
  | case1 read =>
    have := lt_of_closeAt h
    simp only [List.length_nil] at le
    omega
  | case2 d rest read ih => exact ih h (by simp only [List.length_cons] at le; omega)
  | case3 c rest read alone line =>
    rw [List.cons_append, closeAt_cons (plain alone h le), if_pos line] at h
    cases h
  | case4 rest read alone line =>
    rw [List.cons_append, closeAt_cons (plain alone h le), if_neg line, if_pos rfl] at h
    exact h
  | case5 c rest read alone line other ih =>
    rw [List.cons_append, closeAt_cons (plain alone h le), if_neg line, if_neg other] at h
    exact ih h (by simp only [List.length_cons] at le; omega)

theorem closeTripleAt_cons (h : Plain c rest) : closeTripleAt quote (c :: rest) read =
    if c = quote ∧ rest.take 2 = [quote, quote] then some (read + 3)
    else closeTripleAt quote rest (read + 1) := by
  rw [closeTripleAt]
  exact h

theorem lt_of_closeTripleAt (h : closeTripleAt quote p read = some n) : read + 2 < n := by
  fun_induction closeTripleAt quote p read <;> simp_all <;> omega

theorem take_two (h : 2 ≤ p.length) : (p ++ q).take 2 = p.take 2 :=
  List.take_append_of_le_length h

theorem closeTripleAt_front (h : closeTripleAt quote (p ++ q) read = some n)
    (le : n ≤ read + p.length) : closeTripleAt quote p read = some n := by
  have plain {c : Char} {rest : Text} {read : Nat} (plain : Plain c rest)
      (closes : closeTripleAt quote (c :: rest ++ q) read = some n)
      (le : n ≤ read + (c :: rest).length) : Plain c (rest ++ q) := by
    refine plain.append fun d more none longer backslash => ?_
    rw [none, longer, backslash] at closes
    have later : closeTripleAt quote more (read + 2) = some n := closes
    have := lt_of_closeTripleAt later
    simp only [none, List.length_singleton] at le
    omega
  fun_induction closeTripleAt quote p read with
  | case1 read =>
    have := lt_of_closeTripleAt h
    simp only [List.length_nil] at le
    omega
  | case2 d rest read ih => exact ih h (by simp only [List.length_cons] at le; omega)
  | case3 c rest read alone close =>
    have long : 2 ≤ rest.length := by
      have := congrArg List.length close.2
      simp only [List.length_take, List.length_cons, List.length_nil] at this
      omega
    rw [List.cons_append, closeTripleAt_cons (plain alone h le), take_two long, if_pos close] at h
    exact h
  | case4 c rest read alone other ih =>
    have some := lt_of_closeTripleAt h
    simp only [List.length_cons] at le
    have long : 2 ≤ rest.length := by omega
    rw [List.cons_append, closeTripleAt_cons (plain alone h le), take_two long, if_neg other] at h
    exact ih h (by omega)

/-- A literal that closes is the same in every part of the text that holds it. -/
theorem extent_front (closed : (extent quote (p ++ q)).closed = true)
    (le : (extent quote (p ++ q)).length ≤ p.length + 1) :
    extent quote p = extent quote (p ++ q) := by
  have three {text : Text} (h : text.take 2 = [quote, quote]) : 2 ≤ text.length := by
    have := congrArg List.length h
    simp only [List.length_take, List.length_cons, List.length_nil] at this
    omega
  unfold extent at *
  by_cases triple : (p ++ q).take 2 = [quote, quote]
  · rw [if_pos triple] at closed le ⊢
    dsimp only at closed le ⊢
    cases found : closeTripleAt quote ((p ++ q).drop 2) 3 with
    | none => rw [found] at closed; cases closed
    | some n =>
      rw [found] at le
      dsimp only at le
      have far := lt_of_closeTripleAt found
      have long : 2 ≤ p.length := by omega
      rw [List.drop_append_of_le_length long] at found
      rw [take_two long] at triple
      rw [if_pos triple, closeTripleAt_front found (by rw [List.length_drop]; omega)]
  · rw [if_neg triple] at closed le ⊢
    have single : ¬ p.take 2 = [quote, quote] := fun h =>
      triple ((take_two (three h)).trans h)
    rw [if_neg single]
    cases found : closeAt quote (p ++ q) 1 with
    | none => rw [found] at closed; cases closed
    | some n =>
      rw [found] at le
      dsimp only at le
      rw [closeAt_front found (by omega)]

theorem closeAt_last (h : closeAt quote text read = some n) : text[n - read - 1]? = some quote := by
  fun_induction closeAt quote text read with
  | case1 => cases h
  | case2 d rest read ih =>
    have := lt_of_closeAt h
    have index : n - read - 1 = n - (read + 2) - 1 + 1 + 1 := by omega
    rw [index, List.getElem?_cons_succ, List.getElem?_cons_succ]
    exact ih h
  | case3 => cases h
  | case4 rest read =>
    cases h
    rw [show read + 1 - read - 1 = 0 by omega]
    rfl
  | case5 c rest read plain line other ih =>
    have := lt_of_closeAt h
    have index : n - read - 1 = n - (read + 1) - 1 + 1 := by omega
    rw [index, List.getElem?_cons_succ]
    exact ih h

theorem closeTripleAt_last (h : closeTripleAt quote text read = some n) :
    text[n - read - 1]? = some quote := by
  fun_induction closeTripleAt quote text read with
  | case1 => cases h
  | case2 d rest read ih =>
    have := lt_of_closeTripleAt h
    have index : n - read - 1 = n - (read + 2) - 1 + 1 + 1 := by omega
    rw [index, List.getElem?_cons_succ, List.getElem?_cons_succ]
    exact ih h
  | case3 c rest read plain close =>
    cases h
    have second : (rest.take 2)[1]? = some quote := by rw [close.2]; rfl
    rw [show read + 3 - read - 1 = 1 + 1 by omega, List.getElem?_cons_succ]
    rwa [List.getElem?_take_of_lt (by omega)] at second
  | case4 c rest read plain other ih =>
    have := lt_of_closeTripleAt h
    have index : n - read - 1 = n - (read + 1) - 1 + 1 := by omega
    rw [index, List.getElem?_cons_succ]
    exact ih h

/-- A literal that closes ends with its quote. -/
theorem extent_last (closed : (extent quote text).closed = true) :
    (quote :: text)[(extent quote text).length - 1]? = some quote := by
  unfold extent at *
  split
  · next triple =>
    rw [if_pos triple] at closed
    dsimp only at closed ⊢
    split at closed
    · next n found =>
      have far := lt_of_closeTripleAt found
      have last := closeTripleAt_last found
      dsimp only
      rw [List.getElem?_drop] at last
      rw [show n - 1 = 2 + (n - 3 - 1) + 1 by omega, List.getElem?_cons_succ]
      exact last
    · cases closed
  · next single =>
    rw [if_neg single] at closed
    split at closed
    · next n found =>
      have far := lt_of_closeAt found
      have last := closeAt_last found
      dsimp only
      rw [show n - 1 = n - 1 - 1 + 1 by omega, List.getElem?_cons_succ]
      exact last
    · cases closed

end StringLiteral

/-! ## Operators -/

namespace Operator

variable {o o' : Operator} {p q text : Text}

theorem ofText?_eq_some : ofText? text = some o ↔ o.spelling.toList = text := by
  constructor
  · intro h
    have same := List.find?_some h
    rw [beq_iff_eq] at same
    rw [same, String.toList_ofList]
  · rintro rfl
    exact ofText?_spelling o

/-- A text starts with an operator if its first characters are that. -/
theorem take_spelling (h : o.spelling.toList <+: text) :
    ofText? (text.take o.spelling.length) = some o := by
  rw [ofText?_eq_some, ← String.length_toList]
  exact List.prefix_iff_eq_take.1 h

/-- What is at the front is the longest operator that the text starts with. -/
theorem atFront?_longest (h : atFront? text = some o) : o.spelling.toList <+: text ∧
    ∀ o' : Operator, o'.spelling.toList <+: text → o'.spelling.length ≤ o.spelling.length := by
  obtain ⟨before, n, after, split, found, none⟩ := List.findSome?_eq_some_iff.1 h
  rw [ofText?_eq_some] at found
  refine ⟨found ▸ List.take_prefix n text, fun o' ho' => ?_⟩
  have here := take_spelling ho'
  obtain ⟨pos, bounded⟩ := spelling_length o'
  have fits := ho'.length_le
  have length := congrArg List.length found
  rw [String.length_toList, List.length_take] at length
  rw [String.length_toList] at fits
  have upTo : o'.spelling.length ≤ 3 := bounded
  refine Nat.le_of_not_lt fun longer => ?_
  -- the longer spelling was tried before
  have sorted : (before ++ n :: after).Pairwise (· > ·) := split ▸ by decide
  have member : o'.spelling.length ∈ before ++ n :: after := by
    rw [← split]
    simp only [List.mem_cons, List.not_mem_nil, or_false]
    omega
  rcases List.mem_append.1 member with earlier | later
  · rw [none _ earlier] at here
    cases here
  · rcases List.mem_cons.1 later with same | later
    · omega
    · have smaller := (List.pairwise_cons.1 (List.pairwise_append.1 sorted).2.1).1 _ later
      omega

/-- The longest operator that the text starts with is the one at its front. -/
theorem atFront?_eq (front : o.spelling.toList <+: text)
    (longest : ∀ o' : Operator, o'.spelling.toList <+: text →
      o'.spelling.length ≤ o.spelling.length) : atFront? text = some o := by
  have own := take_spelling front
  cases found : atFront? text with
  | none =>
    obtain ⟨pos, bounded⟩ := spelling_length o
    have upTo : o.spelling.length ≤ 3 := bounded
    have tried := List.findSome?_eq_none_iff.1 found o.spelling.length (by
      simp only [List.mem_cons, List.not_mem_nil, or_false]
      omega)
    rw [own] at tried
    cases tried
  | some o' =>
    obtain ⟨front', longest'⟩ := atFront?_longest found
    have same : o'.spelling.length = o.spelling.length :=
      Nat.le_antisymm (longest o' front') (longest' o front)
    rw [← same, take_spelling front'] at own
    exact own

/-- An operator at the front is the same in every part of the text that holds it. -/
theorem atFront?_front (h : atFront? (p ++ q) = some o) (le : o.spelling.length ≤ p.length) :
    atFront? p = some o := by
  obtain ⟨front, longest⟩ := atFront?_longest h
  have own : o.spelling.toList <+: p :=
    List.prefix_of_prefix_length_le front (List.prefix_append p q)
      (by rwa [String.length_toList])
  exact atFront?_eq own fun o' ho' => longest o' (ho'.trans (List.prefix_append p q))

theorem solid_spelling (o : Operator) : ∀ c ∈ o.spelling.toList, IsSolid c := by
  have none : (o.spelling.toList.any fun c => hollow.contains c) = false := by cases o <;> decide
  intro c hc blank
  exact List.any_eq_false.1 none c hc (List.contains_iff_mem.2 blank)

end Operator

/-! ## Lexemes -/

namespace Scanner

variable {c quote : Char} {p q : Text} {marks : Nat}

theorem lineBreakLength_front (le : lineBreakLength (p ++ q) ≤ p.length) :
    lineBreakLength p = lineBreakLength (p ++ q) := by
  cases p with
  | nil => exact (Nat.le_zero.1 le).symm
  | cons c p =>
    by_cases feed : c = '\n'
    · subst feed
      rfl
    by_cases return_ : c = '\r'
    · subst return_
      cases p with
      | nil =>
        cases q with
        | nil => rfl
        | cons d q =>
          by_cases feed : d = '\n'
          · subst feed
            exact absurd le (by simp [lineBreakLength])
          · simp [lineBreakLength, feed]
      | cons d p =>
        by_cases feed : d = '\n'
        · subst feed
          rfl
        · simp [lineBreakLength, feed]
    · simp [lineBreakLength, feed, return_]

theorem literal_length (marks : Nat) (quote : Char) (rest : Text) :
    marks < (literal marks quote rest).length := by
  have := StringLiteral.extent_length_pos quote rest
  simp only [literal]
  omega

theorem literal_front (kind : (literal marks quote (p ++ q)).kind ≠ .error)
    (le : (literal marks quote (p ++ q)).length ≤ marks + (p.length + 1)) :
    literal marks quote p = literal marks quote (p ++ q) := by
  unfold literal at *
  dsimp only at kind le ⊢
  have closed : (StringLiteral.extent quote (p ++ q)).closed = true := by
    by_contra open_
    exact kind (if_neg open_)
  rw [StringLiteral.extent_front closed (by omega)]

theorem wordLexeme_front (kind : (wordLexeme (p ++ q)).kind ≠ .error)
    (le : (wordLexeme (p ++ q)).length ≤ p.length) : wordLexeme p = wordLexeme (p ++ q) := by
  have short : ((p ++ q).takeWhile isNameContinue).length ≤ p.length := by
    refine Nat.le_trans ?_ le
    unfold wordLexeme literal
    dsimp only
    split
    · split
      · exact Nat.le_add_right _ _
      · exact Nat.le_refl _
    · exact Nat.le_refl _
  have word := takeWhile_front short
  unfold wordLexeme at *
  dsimp only at kind le ⊢
  rw [← word] at short kind le ⊢
  generalize p.takeWhile isNameContinue = w at short kind le ⊢
  rw [List.drop_append_of_le_length short] at kind le ⊢
  have length : w.length + (p.drop w.length).length = p.length := by
    rw [List.length_drop]
    omega
  generalize p.drop w.length = tail at kind le length ⊢
  cases tail with
  | nil =>
    rw [List.nil_append] at kind le ⊢
    dsimp only
    split
    · next quote rest =>
      split
      · next marked =>
        -- the quote of the literal is behind the end
        dsimp only at le
        rw [if_pos marked] at le
        have long := literal_length w.length quote rest
        rw [List.length_nil] at length
        omega
      · rfl
    · rfl
  | cons quote rest =>
    rw [List.cons_append] at kind le ⊢
    dsimp only at kind le ⊢
    split
    · next marked =>
      rw [if_pos marked] at kind le
      rw [List.length_cons] at length
      exact literal_front kind (by omega)
    · rfl

theorem operatorLexeme_front (kind : (operatorLexeme (p ++ q)).kind ≠ .error)
    (le : (operatorLexeme (p ++ q)).length ≤ p.length) :
    operatorLexeme p = operatorLexeme (p ++ q) := by
  unfold operatorLexeme at *
  cases found : Operator.atFront? (p ++ q) with
  | none =>
    rw [found] at kind
    exact absurd rfl kind
  | some o =>
    rw [found] at le
    rw [Operator.atFront?_front found le]

/-- A lexeme is the same in every part of the text that holds it. -/
theorem lexeme_front (kind : (lexeme c (p ++ q)).kind ≠ .error)
    (le : (lexeme c (p ++ q)).length ≤ p.length + 1) : lexeme c p = lexeme c (p ++ q) := by
  unfold lexeme at *
  rw [← List.cons_append] at *
  rw [← List.length_cons (a := c)] at le
  split at kind
  · next line =>
    rw [if_pos line] at le ⊢
    rw [if_pos line, lineBreakLength_front le]
  · next line =>
    rw [if_neg line] at le ⊢
    rw [if_neg line]
    split at kind
    · next quoted =>
      rw [if_pos quoted] at le ⊢
      rw [if_pos quoted]
      exact literal_front kind (by rw [List.length_cons] at le; omega)
    · next quoted =>
      rw [if_neg quoted] at le ⊢
      rw [if_neg quoted]
      split at kind
      · next number =>
        rw [if_pos number] at le ⊢
        rw [if_pos (Numeral.startsAt_front number le), Numeral.stable_length _ _ le]
      · next number =>
        rw [if_neg number] at le ⊢
        rw [if_neg fun h => number (Numeral.startsAt_append h)]
        split at kind
        · next name =>
          rw [if_pos name] at le ⊢
          rw [if_pos name]
          exact wordLexeme_front kind le
        · next name =>
          rw [if_neg name] at le ⊢
          rw [if_neg name]
          exact operatorLexeme_front kind le

theorem literal_last (word : Text) {quote : Char} {rest : Text}
    (kind : (literal word.length quote rest).kind ≠ .error) :
    (word ++ quote :: rest)[(literal word.length quote rest).length - 1]? = some quote := by
  unfold literal at *
  dsimp only at kind ⊢
  have closed : (StringLiteral.extent quote rest).closed = true := by
    by_contra open_
    exact kind (if_neg open_)
  have pos := StringLiteral.extent_length_pos quote rest
  rw [show word.length + (StringLiteral.extent quote rest).length - 1 =
    word.length + ((StringLiteral.extent quote rest).length - 1) by omega,
    List.getElem?_append_right (Nat.le_add_right _ _), Nat.add_sub_cancel_left]
  exact StringLiteral.extent_last closed

theorem isQuote_solid {quote : Char} (h : StringLiteral.isQuote quote = true) : IsSolid quote :=
  isSolid_of_accept (by decide) h

/-- No white space goes on with a name. -/
theorem solid_word : Solid (Numeral.runLength isNameContinue) :=
  solid_runLength (by decide +kernel)

theorem wordLexeme_last {text : Text} (kind : (wordLexeme text).kind ≠ .error)
    (pos : 0 < (wordLexeme text).length) :
    ∃ d, text[(wordLexeme text).length - 1]? = some d ∧ IsSolid d := by
  unfold wordLexeme at *
  dsimp only at kind pos ⊢
  split at kind
  · next quote rest behind =>
    rw [behind] at pos
    dsimp only at pos
    split at kind
    · next marked =>
      rw [if_pos marked]
      have run := List.takeWhile_prefix isNameContinue (l := text)
      have whole := List.take_append_drop (text.takeWhile isNameContinue).length text
      rw [behind, ← List.prefix_iff_eq_take.1 run] at whole
      have ends := literal_last _ kind
      rw [whole] at ends
      exact ⟨quote, ends, isQuote_solid marked.1⟩
    · next unmarked =>
      rw [if_neg unmarked] at pos ⊢
      exact solid_word text _ (Nat.sub_one_lt_of_lt pos)
  · next behind =>
    rw [behind] at pos
    exact solid_word text _ (Nat.sub_one_lt_of_lt pos)

theorem operatorLexeme_last {text : Text} (kind : (operatorLexeme text).kind ≠ .error) :
    ∃ d, text[(operatorLexeme text).length - 1]? = some d ∧ IsSolid d := by
  unfold operatorLexeme at *
  split at kind
  · next o found =>
    obtain ⟨rest, rfl⟩ := (Operator.atFront?_longest found).1
    have pos := (Operator.spelling_length o).1
    have short : o.spelling.length - 1 < o.spelling.toList.length := by
      rw [String.length_toList]
      omega
    have last := List.getElem?_eq_getElem short
    refine ⟨_, ?_, Operator.solid_spelling o _ (List.mem_of_getElem? last)⟩
    rw [← last]
    exact List.getElem?_append_left short
  · exact absurd rfl kind

/-- A lexeme is there, and it does not end with a space or a tab. -/
theorem lexeme_last {c : Char} {rest : Text} (kind : (lexeme c rest).kind ≠ .error)
    (noReturn : c ≠ '\r') :
    ∃ d, (c :: rest)[(lexeme c rest).length - 1]? = some d ∧ d ≠ ' ' ∧ d ≠ '\t' := by
  have visible {k : Nat} : (∃ d, (c :: rest)[k]? = some d ∧ IsSolid d) →
      ∃ d, (c :: rest)[k]? = some d ∧ d ≠ ' ' ∧ d ≠ '\t' :=
    fun ⟨d, last, solid⟩ => ⟨d, last, solid.visible⟩
  unfold lexeme at *
  split at kind
  · next line =>
    obtain rfl := line.resolve_right noReturn
    rw [if_pos line]
    exact ⟨_, rfl, by decide⟩
  · next line =>
    rw [if_neg line]
    split at kind
    · next quoted =>
      rw [if_pos quoted]
      exact visible ⟨c, literal_last [] kind, isQuote_solid quoted⟩
    · next quoted =>
      rw [if_neg quoted]
      split at kind
      · next number =>
        rw [if_pos number]
        exact visible
          (Numeral.solid_length _ _ (Nat.sub_one_lt_of_lt (Numeral.length_pos number)))
      · next number =>
        rw [if_neg number]
        split at kind
        · next name =>
          rw [if_pos name]
          exact visible (wordLexeme_last kind (wordLexeme_length_pos name))
        · next name =>
          rw [if_neg name]
          exact visible (operatorLexeme_last kind)

theorem lexeme_pos {c : Char} {rest : Text} (noReturn : c ≠ '\r') : 0 < (lexeme c rest).length :=
  lexeme_length_pos fun h => absurd h noReturn

/-- A lexeme is no longer than the text. -/
theorem lexeme_length_le {c : Char} {rest : Text} (kind : (lexeme c rest).kind ≠ .error)
    (noReturn : c ≠ '\r') : (lexeme c rest).length ≤ rest.length + 1 := by
  obtain ⟨d, last, -⟩ := lexeme_last kind noReturn
  obtain ⟨short, -⟩ := List.getElem?_eq_some_iff.1 last
  rw [List.length_cons] at short
  omega

/-- Behind a lexeme the text can be cut off anywhere: the lexeme stays what it is. -/
theorem lexeme_upTo {c : Char} {tail behind more : Text} (error : (lexeme c tail).kind ≠ .error)
    (noReturn : c ≠ '\r') (h : (c :: tail).drop (lexeme c tail).length = behind ++ more) :
    ∃ tail', tail = tail' ++ more ∧
      (c :: tail).take (lexeme c tail).length ++ behind = c :: tail' ∧
      lexeme c tail' = lexeme c tail ∧
      (c :: tail').take (lexeme c tail).length = (c :: tail).take (lexeme c tail).length ∧
      (c :: tail').drop (lexeme c tail).length = behind := by
  have pos : 0 < (lexeme c tail).length := lexeme_pos noReturn
  have length : ((c :: tail).take (lexeme c tail).length).length = (lexeme c tail).length := by
    rw [List.length_take, List.length_cons]
    exact Nat.min_eq_left (lexeme_length_le error noReturn)
  have whole := List.take_append_drop (lexeme c tail).length (c :: tail)
  generalize (c :: tail).take (lexeme c tail).length = value at length whole ⊢
  rw [h, ← List.append_assoc] at whole
  obtain ⟨tail', front, rfl⟩ : ∃ tail', value ++ behind = c :: tail' ∧ tail = tail' ++ more := by
    cases value with
    | nil =>
      rw [← length] at pos
      cases pos
    | cons d value =>
      obtain ⟨rfl, rest⟩ := List.cons.inj whole
      exact ⟨_, rfl, rest.symm⟩
  have upTo : (lexeme c (tail' ++ more)).length ≤ tail'.length + 1 := by
    rw [← length, ← List.length_cons, ← front, List.length_append]
    exact Nat.le_add_right _ _
  refine ⟨tail', rfl, front, lexeme_front error upTo, ?_, ?_⟩
  · rw [← front, ← length, List.take_left]
  · rw [← front, ← length, List.drop_left]

/-- A backslash is no lexeme. -/
theorem lexeme_backslash (rest : Text) : (lexeme '\\' rest).kind = .error := by
  have word : isNameStart '\\' = false := by decide +kernel
  have number : Numeral.startsAt ('\\' :: rest) = false := by simp [Numeral.startsAt]
  have operator : Operator.atFront? ('\\' :: rest) = none := by
    cases found : Operator.atFront? ('\\' :: rest) with
    | none => rfl
    | some o =>
      have first : o.spelling.toList.head? ≠ some '\\' := by cases o <;> decide
      obtain ⟨more, whole⟩ := (Operator.atFront?_longest found).1
      cases spelling : o.spelling.toList with
      | nil => cases o <;> cases spelling
      | cons d spelling' =>
        rw [spelling] at whole first
        rw [List.cons_append] at whole
        exact absurd (congrArg some (List.cons.inj whole).1) first
  unfold lexeme operatorLexeme
  rw [if_neg (by decide), if_neg (by decide), if_neg (by simp [number]), if_neg (by simp [word]),
    operator]

end Scanner

end Caret

/-!
# Ascending lists

Finite sets as lists in strictly ascending order.

Results:
* `mem_insert`, `mem_ofList`: what is in them.
* `pairwise_insert`, `pairwise_ofList`: they ascend.
-/
namespace Caret.Ascending

variable {α : Type} [LT α] [DecidableLT α] [DecidableEq α]

/-- Put an element in its place; one that is there already is not repeated. -/
def insert (x : α) : List α → List α
  | [] => [x]
  | y :: rest => if x < y then x :: y :: rest else if x = y then y :: rest else y :: insert x rest

/-- The elements of a list, in ascending order and each once. -/
def ofList (xs : List α) : List α := xs.foldr insert []

theorem mem_insert {x y : α} {xs : List α} : y ∈ insert x xs ↔ y = x ∨ y ∈ xs := by
  induction xs with
  | nil => simp [insert]
  | cons z rest ih =>
    rw [insert]
    split
    · simp
    · split
      · next h => subst h; simp
      · simp only [List.mem_cons, ih]
        exact or_left_comm

@[simp] theorem mem_ofList {x : α} {xs : List α} : x ∈ ofList xs ↔ x ∈ xs := by
  induction xs with
  | nil => simp [ofList]
  | cons y rest ih =>
    have h : ofList (y :: rest) = insert y (ofList rest) := rfl
    rw [h, mem_insert, ih, List.mem_cons]

variable [Trans (α := α) (· < ·) (· < ·) (· < ·)] [Std.Trichotomous (α := α) (· < ·)]

theorem pairwise_insert {x : α} {xs : List α} (h : xs.Pairwise (· < ·)) :
    (insert x xs).Pairwise (· < ·) := by
  induction xs with
  | nil => simp [insert]
  | cons y rest ih =>
    obtain ⟨hy, hrest⟩ := List.pairwise_cons.1 h
    rw [insert]
    split
    · next hxy => exact List.pairwise_cons.2 ⟨fun z hz => (List.mem_cons.1 hz).elim (· ▸ hxy)
        fun hz => Trans.trans hxy (hy z hz), h⟩
    · split
      · exact h
      · next hxy hne =>
        have hyx : y < x := by
          by_cases hlt : y < x
          · exact hlt
          · exact absurd (Std.Trichotomous.trichotomous (r := (· < ·)) x y hxy hlt) hne
        refine List.pairwise_cons.2 ⟨fun z hz => ?_, ih hrest⟩
        exact (mem_insert.1 hz).elim (· ▸ hyx) (hy z)

theorem pairwise_ofList (xs : List α) : (ofList xs).Pairwise (· < ·) := by
  induction xs with
  | nil => simp [ofList]
  | cons x rest ih => exact pairwise_insert ih

end Caret.Ascending

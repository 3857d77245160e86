import Mathlib.Data.List.Basic
import Mathlib.Data.List.Perm.Basic

/-!
# Groupings

The ways to combine several values with a binary operation: a binary tree over
them. Two groupings with the same leaves up to order are two orders and
parenthesisations of the same fold.
-/

/-- A parenthesisation. -/
inductive Grouping (α : Type*) where
  | leaf (value : α)
  | node (left right : Grouping α)

namespace Grouping

variable {α β : Type*}

def leaves : Grouping α → List α
  | leaf value => [value]
  | node left right => left.leaves ++ right.leaves

/-- The value the operation gives for this grouping. -/
def fold (f : α → α → α) : Grouping α → α
  | leaf value => value
  | node left right => f (left.fold f) (right.fold f)

/-- Every non-empty list can be grouped. -/
theorem exists_leaves {xs : List α} (h : xs ≠ []) : ∃ g : Grouping α, g.leaves = xs := by
  induction xs with
  | nil => exact absurd rfl h
  | cons x xs ih =>
    cases xs with
    | nil => exact ⟨leaf x, rfl⟩
    | cons y ys =>
      obtain ⟨g, hg⟩ := ih (by simp)
      exact ⟨node (leaf x) g, by simp [leaves, hg]⟩

end Grouping

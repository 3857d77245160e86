import Mathlib.Data.List.Lex
import Mathlib.Order.Lattice
import Mathlib.Order.Monotone.Defs

/-!
# Order-preserving codes

Words are compared lexicographically. A code preserves the order when it does so
whatever follows the code words (`IsOrderCode`). Comparing two code words with
something behind each is then comparing the coded values first and the rest second,
so that such codes compose by concatenation.
-/

namespace OrderCode

open List

variable {A α β : Type*} [LinearOrder A] (w : List A) {r s : List A}

/-- A common beginning does not matter. -/
theorem append_lt_append_iff : w ++ r < w ++ s ↔ r < s := by
  induction w with
  | nil => rfl
  | cons a w ih => simp [ih]

theorem append_le_append_iff : w ++ r ≤ w ++ s ↔ r ≤ s := by
  rw [← not_lt, append_lt_append_iff, not_lt]

/-- A word comes before its extensions. -/
theorem le_append (w r : List A) : w ≤ w ++ r := by
  have h : w ++ [] ≤ w ++ r := (append_le_append_iff w).mpr (not_lt.mp (by simp))
  simpa using h

/-- Between two extensions of a word there are only extensions of it. -/
theorem prefix_of_between {w x : List A} (hlow : w ++ r ≤ x) (hhigh : x < w ++ s) : w <+: x := by
  induction w generalizing x with
  | nil => exact nil_prefix
  | cons a w ih =>
    cases x with
    | nil => exact absurd hlow (not_le.mpr (by simp))
    | cons b x =>
      rw [← not_lt] at hlow
      simp only [cons_append, cons_lt_cons_iff, not_or, not_and] at hlow hhigh
      rcases hhigh with hlt | ⟨rfl, hhigh⟩
      · exact absurd hlt hlow.1
      · exact cons_prefix_cons.mpr ⟨rfl, ih (not_lt.mp (hlow.2 rfl)) hhigh⟩

/-- Two words differ at a place, and the first has the smaller letter there. -/
inductive Diverges : List A → List A → Prop
  | head {x y : A} (h : x < y) (u v : List A) : Diverges (x :: u) (y :: v)
  | cons (x : A) {u v : List A} (h : Diverges u v) : Diverges (x :: u) (x :: v)

namespace Diverges

variable {u v : List A}

theorem append_left (w : List A) (h : Diverges u v) : Diverges (w ++ u) (w ++ v) := by
  induction w with
  | nil => exact h
  | cons x w ih => exact .cons x ih

theorem lt (h : Diverges u v) : u < v := by
  induction h with
  | head hlt u v => exact cons_lt_cons_iff.mpr (.inl hlt)
  | cons x _ ih => exact cons_lt_cons_iff.mpr (.inr ⟨rfl, ih⟩)

/-- A map that turns the order of the letters around does so for words that differ at a
place. -/
theorem map_anti {c : A → A} (hc : StrictAnti c) (h : Diverges u v) :
    Diverges (v.map c) (u.map c) := by
  induction h with
  | head hlt u v => exact .head (hc hlt) _ _
  | cons x _ ih => exact .cons _ ih

/-- Words in order differ at a place once a letter below all of theirs ends each. -/
theorem of_lt_terminated {z : A} (hz : ∀ x ∈ v, z < x) (h : u < v) :
    Diverges (u ++ [z]) (v ++ [z]) := by
  induction u generalizing v with
  | nil =>
    cases v with
    | nil => exact absurd h (not_lt_nil _)
    | cons y v => exact .head (hz y mem_cons_self) _ _
  | cons x u ih =>
    cases v with
    | nil => exact absurd h (not_lt_nil _)
    | cons y v =>
      rcases cons_lt_cons_iff.mp h with hlt | ⟨rfl, hlt⟩
      · exact .head hlt _ _
      · exact .cons x (ih (fun y hy => hz y (.tail _ hy)) hlt)

end Diverges

/-- Code words with something behind each compare as the coded values do, where these
differ. -/
def IsOrderCode [LT α] (f : α → List A) : Prop :=
  ∀ a b r s, a < b → f a ++ r < f b ++ s

namespace IsOrderCode

variable [LinearOrder α] {f : α → List A} (h : IsOrderCode f) {a b : α} {r s : List A}
include h

theorem lt_iff : f a ++ r < f b ++ s ↔ a < b ∨ a = b ∧ r < s := by
  rcases lt_trichotomy a b with hab | rfl | hab
  · exact iff_of_true (h a b r s hab) (.inl hab)
  · simp [append_lt_append_iff]
  · refine iff_of_false (not_lt.mpr (h b a s r hab).le) ?_
    rintro (hlt | ⟨rfl, -⟩)
    · exact lt_asymm hlt hab
    · exact lt_irrefl _ hab

/-- A code word is not after a word that starts with another exactly when its value is
not. -/
theorem le_append_iff : f a ≤ f b ++ r ↔ a ≤ b := by
  have hlt := h.lt_iff (a := b) (b := a) (r := r) (s := [])
  rw [append_nil] at hlt
  rw [← not_lt, hlt, ← not_lt]
  simp

theorem append_lt_iff : f b ++ r < f a ↔ b < a := by
  rw [← not_le, h.le_append_iff, not_le]

/-- A code word at the start of a word determines the value. -/
theorem prefix_append_iff : f a <+: f b ++ r ↔ a = b := by
  constructor
  · rintro ⟨s, hs⟩
    rcases lt_trichotomy a b with hab | hab | hab
    · exact absurd hs (h a b s r hab).ne
    · exact hab
    · exact absurd hs (h b a r s hab).ne'
  · rintro rfl
    exact prefix_append _ _

/-- What follows a code word at the start of a word is compared with what follows the other. -/
theorem append_prefix_append_iff : f a ++ r <+: f b ++ s ↔ a = b ∧ r <+: s := by
  constructor
  · intro hpre
    obtain rfl : a = b := h.prefix_append_iff.mp ((prefix_append _ _).trans hpre)
    exact ⟨rfl, (prefix_append_right_inj _).mp hpre⟩
  · rintro ⟨rfl, hpre⟩
    exact (prefix_append_right_inj _).mpr hpre

theorem append_inj (heq : f a ++ r = f b ++ s) : a = b ∧ r = s := by
  have hab : a = b := h.prefix_append_iff.mp ⟨r, heq⟩
  subst hab
  exact ⟨rfl, append_cancel_left heq⟩

end IsOrderCode

end OrderCode

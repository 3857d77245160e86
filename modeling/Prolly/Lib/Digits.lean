import Mathlib.Data.List.Lex
import Mathlib.Algebra.Order.Field.Rat
import Mathlib.Tactic.FieldSimp
import Mathlib.Tactic.Linarith
import Mathlib.Tactic.Positivity
import Mathlib.Tactic.Ring

/-!
# Digit strings

A digit string to a base denotes a number (`number`) and, read behind the point, a
fraction (`fraction`). Digit strings in lexicographic order have fractions in order; the
fractions of a string and of a longer one differ unless the longer one goes on with zeros.
-/

namespace Digits

open List

variable {A : Type*} (val : A → ℕ) (b : ℕ)

/-- The number that a digit string denotes. -/
def number (ds : List A) : ℕ := ds.foldl (fun n d => b * n + val d) 0

/-- The number that a digit string denotes behind the point. -/
def fraction : List A → ℚ
  | [] => 0
  | d :: ds => (val d + fraction ds) / b

@[simp] theorem number_nil : number val b [] = 0 := rfl

theorem foldl_number (n : ℕ) (ds : List A) :
    ds.foldl (fun n d => b * n + val d) n = n * b ^ ds.length + number val b ds := by
  induction ds generalizing n with
  | nil => simp
  | cons d ds ih =>
    simp only [number, foldl_cons, length_cons]
    rw [ih, ih (b * 0 + val d)]
    ring

theorem number_cons (d : A) (ds : List A) :
    number val b (d :: ds) = val d * b ^ ds.length + number val b ds := by
  have h := foldl_number val b (val d) ds
  simpa [number] using h

theorem number_append (ds es : List A) :
    number val b (ds ++ es) = number val b ds * b ^ es.length + number val b es := by
  rw [number, foldl_append]
  exact foldl_number val b _ es

/-- Zeros behind a string shift its number. -/
theorem number_append_zeros {z : A} (hz : val z = 0) (ds : List A) (n : ℕ) :
    number val b (ds ++ List.replicate n z) = number val b ds * b ^ n := by
  have hzeros : ∀ n, number val b (List.replicate n z) = 0 := by
    intro n
    induction n with
    | zero => rfl
    | succ n ih => rw [replicate_succ, number_cons, hz, ih]; simp
  rw [number_append, hzeros, length_replicate, add_zero]

/-- Zeros in front of a string do not count. -/
theorem number_zeros_append {z : A} (hz : val z = 0) (ds : List A) (n : ℕ) :
    number val b (List.replicate n z ++ ds) = number val b ds := by
  induction n with
  | zero => rfl
  | succ n ih => rw [replicate_succ, cons_append, number_cons, hz, ih]; simp

variable {b}

theorem fraction_eq (hb : 0 < b) (ds : List A) :
    fraction val b ds = number val b ds / (b : ℚ) ^ ds.length := by
  have hb' : (b : ℚ) ≠ 0 := by positivity
  induction ds with
  | nil => simp [fraction]
  | cons d ds ih =>
    rw [fraction, ih, number_cons, length_cons]
    push_cast
    field_simp
    ring

theorem fraction_nonneg (ds : List A) : 0 ≤ fraction val b ds := by
  induction ds with
  | nil => exact le_rfl
  | cons d ds ih => rw [fraction]; positivity

variable {val}

theorem fraction_lt_one {ds : List A} (hds : ∀ d ∈ ds, val d < b) : fraction val b ds < 1 := by
  induction ds with
  | nil => exact one_pos
  | cons d ds ih =>
    obtain ⟨hd, hds⟩ := forall_mem_cons.mp hds
    have hb : (0 : ℚ) < b := by exact_mod_cast (Nat.zero_le _).trans_lt hd
    have hd' : (val d : ℚ) + 1 ≤ b := by exact_mod_cast hd
    rw [fraction, div_lt_one hb]
    linarith [ih hds]

theorem fraction_pos (hb : 0 < b) {ds : List A} (h : ∃ d ∈ ds, 0 < val d) :
    0 < fraction val b ds := by
  have hb' : (0 : ℚ) < b := by exact_mod_cast hb
  induction ds with
  | nil => obtain ⟨d, hd, -⟩ := h; cases hd
  | cons d ds ih =>
    rw [fraction]
    obtain ⟨e, he, hpos⟩ := h
    rcases mem_cons.mp he with rfl | he
    · have hpos' : (0 : ℚ) < val e := by exact_mod_cast hpos
      exact div_pos (by linarith [fraction_nonneg val (b := b) ds]) hb'
    · have hrest := ih ⟨e, he, hpos⟩
      positivity

/-- A string that starts with a digit other than zero denotes at least one unit of its first
place. -/
theorem inv_le_fraction (hb : 0 < b) {d : A} (hd : 0 < val d) (ds : List A) :
    (b : ℚ)⁻¹ ≤ fraction val b (d :: ds) := by
  have hb' : (0 : ℚ) < b := by exact_mod_cast hb
  have hd' : (1 : ℚ) ≤ val d := by exact_mod_cast hd
  have hrest := fraction_nonneg val (b := b) ds
  rw [fraction, inv_eq_one_div]
  gcongr
  linarith

/-- Digit strings in lexicographic order have fractions in order, where the second is not the
first with zeros behind it. -/
theorem fraction_lt [LinearOrder A] {ds es : List A} (hds : ∀ d ∈ ds, val d < b)
    (hes : ∀ d ∈ es, val d < b) (hval : ∀ d ∈ ds, ∀ e ∈ es, d < e → val d < val e)
    (h : ds < es) (hrest : ∀ rest, es = ds ++ rest → ∃ d ∈ rest, 0 < val d) :
    fraction val b ds < fraction val b es := by
  induction ds generalizing es with
  | nil =>
    obtain ⟨d, hd, hpos⟩ := hrest es rfl
    exact fraction_pos ((Nat.zero_le _).trans_lt (hes d hd)) ⟨d, hd, hpos⟩
  | cons d ds ih =>
    cases es with
    | nil => exact absurd h (not_lt_nil _)
    | cons e es =>
      have hb : (0 : ℚ) < b := by
        exact_mod_cast (Nat.zero_le _).trans_lt (hds d mem_cons_self)
      have hone := fraction_lt_one fun x hx => hds x (.tail _ hx)
      have hnonneg := fraction_nonneg val (b := b) es
      rw [fraction, fraction]
      refine div_lt_div_of_pos_right ?_ hb
      rcases cons_lt_cons_iff.mp h with hlt | ⟨rfl, hlt⟩
      · have hstep : (val d : ℚ) + 1 ≤ val e := by
          exact_mod_cast hval d mem_cons_self e mem_cons_self hlt
        linarith
      · have hfraction := ih (fun x hx => hds x (.tail _ hx))
          (fun x hx => hes x (.tail _ hx))
          (fun x hx y hy => hval x (.tail _ hx) y (.tail _ hy))
          hlt fun rest heq => hrest rest (by rw [heq]; rfl)
        linarith

end Digits

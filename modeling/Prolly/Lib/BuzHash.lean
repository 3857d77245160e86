import Mathlib.Tactic.SplitIfs
import Mathlib.Data.List.Induction

/-!
# Prolly.Lib.BuzHash

The rotate-and-xor hash of a sequence: rotate by one, xor the hash of the next element. Rotations of
a word compose by adding their amounts and distribute over xor, so the first element of a sequence
contributes its hash rotated by the number of elements behind it (`buzHash_cons`), and can be taken
out again when the sequence slides on (`buzHash_slide`).
-/

namespace BitVec

variable {w : Nat} (x : BitVec w)

/-- A rotation reads the word that many places back, around the end. -/
theorem getLsbD_rotateLeft_eq (n : Nat) {i : Nat} (hi : i < w) :
    (x.rotateLeft n).getLsbD i = x.getLsbD (if i < n % w then i + (w - n % w) else i - n % w) := by
  rw [getLsbD_rotateLeft]
  by_cases hlt : i < n % w
  · rw [decide_eq_true hlt, cond_true, if_pos hlt, Nat.add_comm]
  · rw [decide_eq_false hlt, cond_false, decide_eq_true hi, Bool.true_and, if_neg hlt]

theorem rotateLeft_xor (x y : BitVec w) (n : Nat) :
    (x ^^^ y).rotateLeft n = x.rotateLeft n ^^^ y.rotateLeft n := by
  apply eq_of_getLsbD_eq
  intro i hi
  simp only [getLsbD_xor, getLsbD_rotateLeft_eq _ _ hi]

theorem rotateLeft_rotateLeft (m n : Nat) :
    (x.rotateLeft m).rotateLeft n = x.rotateLeft (m + n) := by
  apply eq_of_getLsbD_eq
  intro i hi
  have hw : 0 < w := by omega
  have hm := Nat.mod_lt m hw
  have hn := Nat.mod_lt n hw
  -- the amounts are below the width, and so is their sum after at most one turn
  have hmn : (m + n) % w = if m % w + n % w < w then m % w + n % w else m % w + n % w - w := by
    rw [Nat.add_mod]
    split
    · next hlt => exact Nat.mod_eq_of_lt hlt
    · rw [Nat.mod_eq_sub_mod (by omega), Nat.mod_eq_of_lt (by omega)]
  rw [getLsbD_rotateLeft_eq _ _ hi, getLsbD_rotateLeft_eq _ _ (by split <;> omega),
    getLsbD_rotateLeft_eq _ _ hi, hmn]
  congr 1
  generalize m % w = m at hm ⊢
  generalize n % w = n at hn ⊢
  split_ifs <;> omega

theorem rotateLeft_zero : x.rotateLeft 0 = x := by
  apply eq_of_getLsbD_eq
  intro i hi
  rw [getLsbD_rotateLeft_eq _ _ hi, Nat.zero_mod, if_neg (Nat.not_lt_zero i), Nat.sub_zero]

theorem zero_rotateLeft (n : Nat) : (0#w).rotateLeft n = 0#w := by
  rw [rotateLeft_def]
  simp

end BitVec

/-- The rotate-and-xor hash of a sequence. -/
def buzHash {α : Type} {w : Nat} (h : α → BitVec w) (xs : List α) : BitVec w :=
  xs.foldl (fun hash x => hash.rotateLeft 1 ^^^ h x) 0

section

variable {α : Type} {w : Nat} (h : α → BitVec w) (x : α)

theorem buzHash_concat (xs : List α) (x : α) :
    buzHash h (xs ++ [x]) = (buzHash h xs).rotateLeft 1 ^^^ h x := by
  rw [buzHash, List.foldl_append]
  rfl

theorem buzHash_cons (xs : List α) :
    buzHash h (x :: xs) = (h x).rotateLeft xs.length ^^^ buzHash h xs := by
  induction xs using List.reverseRecOn with
  | nil => simp [buzHash, BitVec.zero_rotateLeft, BitVec.rotateLeft_zero]
  | append_singleton xs y ih =>
    rw [← List.cons_append, buzHash_concat, buzHash_concat, ih, BitVec.rotateLeft_xor,
      BitVec.rotateLeft_rotateLeft, List.length_append, List.length_singleton, BitVec.xor_assoc]

/-- The hash of the next window: the hash of the longer sequence, less its first element. -/
theorem buzHash_slide (xs : List α) (y : α) :
    (buzHash h (x :: xs)).rotateLeft 1 ^^^ h y ^^^ (h x).rotateLeft (xs.length + 1) =
      buzHash h (xs ++ [y]) := by
  rw [← buzHash_concat, List.cons_append, buzHash_cons, List.length_append, List.length_singleton,
    BitVec.xor_comm, ← BitVec.xor_assoc, BitVec.xor_self, BitVec.zero_xor]

end

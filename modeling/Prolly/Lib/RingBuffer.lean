import Mathlib.Data.List.Basic

/-!
# Prolly.Lib.RingBuffer

A buffer of the last elements of a stream, in a vector of fixed capacity that is filled and then
overwritten in a circle. Its contents, oldest first, are the vector behind the write position
followed by the vector before it (`contents`). A push to a full buffer replaces the oldest element,
so that the buffer holds the last elements pushed since it was cleared (`Holds.push_room`,
`Holds.push_full`).
-/

variable {α : Type}

/-- A vector of at most `capacity` elements; once full, `next` is overwritten next. -/
structure RingBuffer (α : Type) where
  items : List α
  capacity : Nat
  next : Nat
  deriving DecidableEq

/-- The last `n` elements of a list. -/
def List.lastN (n : Nat) (xs : List α) : List α := xs.drop (xs.length - n)

@[simp] theorem List.lastN_nil (n : Nat) : ([] : List α).lastN n = [] := drop_nil

theorem List.length_lastN (n : Nat) (xs : List α) : (xs.lastN n).length = min n xs.length := by
  rw [lastN, length_drop]
  omega

theorem List.lastN_concat_of_lt {n : Nat} {xs : List α} (h : xs.length < n) (x : α) :
    (xs ++ [x]).lastN n = xs.lastN n ++ [x] := by
  have hle : (xs ++ [x]).length - n = 0 := by simp; omega
  have hle' : xs.length - n = 0 := by omega
  rw [lastN, lastN, hle, hle', drop_zero, drop_zero]

theorem List.lastN_concat_of_le {n : Nat} {xs : List α} (hn : 0 < n) (h : n ≤ xs.length) (x : α) :
    (xs ++ [x]).lastN n = (xs.lastN n).tail ++ [x] := by
  have hdrop : (xs ++ [x]).length - n = xs.length - n + 1 := by simp; omega
  rw [lastN, lastN, hdrop, tail_drop, drop_append_of_le_length (by omega)]

namespace RingBuffer

open List

def new (capacity : Nat) : RingBuffer α := ⟨[], capacity, 0⟩

/-- Add an element, and return the one it replaces. -/
def push (w : RingBuffer α) (x : α) : Option α × RingBuffer α :=
  if w.items.length < w.capacity then (none, { w with items := w.items ++ [x] })
  else
    (w.items[w.next]?,
      { w with items := w.items.set w.next x
               next := if w.next + 1 = w.capacity then 0 else w.next + 1 })

/-- Forget the elements. -/
def clear (w : RingBuffer α) : RingBuffer α := { w with items := [], next := 0 }

/-- The elements, oldest first. -/
def contents (w : RingBuffer α) : List α := w.items.drop w.next ++ w.items.take w.next

/-- The buffer holds the last elements of `xs`. -/
structure Holds (w : RingBuffer α) (xs : List α) : Prop where
  length : w.items.length ≤ w.capacity
  next : w.next < w.items.length ∨ w.next = 0
  full : w.items.length < w.capacity → w.next = 0
  contents : w.contents = xs.lastN w.capacity

theorem new_holds (capacity : Nat) : (new capacity : RingBuffer α).Holds [] :=
  ⟨Nat.zero_le _, .inr rfl, fun _ => rfl, by simp [RingBuffer.contents, new]⟩

theorem clear_holds (w : RingBuffer α) : w.clear.Holds [] :=
  ⟨Nat.zero_le _, .inr rfl, fun _ => rfl, by simp [RingBuffer.contents, clear]⟩

variable {w : RingBuffer α} {xs : List α}

theorem Holds.length_eq (h : w.Holds xs) : w.items.length = min w.capacity xs.length := by
  have hlen := congrArg List.length h.contents
  rw [length_lastN, RingBuffer.contents, length_append, length_drop,
    length_take] at hlen
  omega

/-- A push to a buffer with room. -/
theorem Holds.push_room (h : w.Holds xs) (hroom : xs.length < w.capacity) (x : α) :
    (w.push x).1 = none ∧ (w.push x).2.Holds (xs ++ [x]) ∧ (w.push x).2.capacity = w.capacity := by
  have hlen := h.length_eq
  have hlt : w.items.length < w.capacity := by omega
  have hnext := h.full hlt
  rw [push, if_pos hlt]
  refine ⟨rfl, ⟨?_, .inr hnext, fun _ => hnext, ?_⟩, rfl⟩
  · simp only [length_append, length_singleton]
    omega
  · have hcontents := h.contents
    rw [RingBuffer.contents, hnext, drop_zero, take_zero, append_nil] at hcontents
    show (w.items ++ [x]).drop w.next ++ (w.items ++ [x]).take w.next = _
    rw [hnext, drop_zero, take_zero, append_nil, hcontents,
      lastN_concat_of_lt hroom]

/-- A push to a full buffer replaces the oldest element. -/
theorem Holds.push_full (h : w.Holds xs) (hpos : 0 < w.capacity) (hfull : w.capacity ≤ xs.length)
    (x : α) :
    (w.push x).1 = (xs.lastN w.capacity).head? ∧ (w.push x).2.Holds (xs ++ [x]) ∧
      (w.push x).2.capacity = w.capacity := by
  have hlen : w.items.length = w.capacity := by
    have := h.length_eq
    omega
  have hnext : w.next < w.items.length := by
    have := h.next
    omega
  have hsplit : w.items.drop w.next = w.items[w.next] :: w.items.drop (w.next + 1) :=
    drop_eq_getElem_cons hnext
  have hcontents := h.contents
  rw [RingBuffer.contents, hsplit, cons_append] at hcontents
  rw [push, if_neg (by omega)]
  refine ⟨?_, ⟨?_, ?_, ?_, ?_⟩, rfl⟩
  · rw [← hcontents, getElem?_eq_getElem hnext, head?_cons]
  · rw [length_set]
    exact h.length
  · rw [length_set]
    dsimp only
    split <;> omega
  · intro hlt
    rw [length_set] at hlt
    dsimp only at hlt
    omega
  · -- behind the write position nothing changes; before it, the new element comes last
    rw [lastN_concat_of_le hpos hfull, ← hcontents, tail_cons]
    have hdrop : (w.items.set w.next x).drop (w.next + 1) = w.items.drop (w.next + 1) :=
      drop_set_of_lt (by omega)
    have htake : (w.items.set w.next x).take (w.next + 1) = w.items.take w.next ++ [x] := by
      rw [take_add_one, take_set_of_le (Nat.le_refl _)]
      simp [hnext]
    rw [RingBuffer.contents]
    dsimp only
    split
    · next hwrap =>
      have hall : w.items.drop (w.next + 1) = [] := drop_eq_nil_of_le (by omega)
      have hset : w.items.set w.next x = w.items.take w.next ++ [x] := by
        rw [← htake, take_of_length_le (by rw [length_set]; omega)]
      rw [drop_zero, take_zero, append_nil, hset, hall, nil_append]
    · rw [hdrop, htake, append_assoc]

end RingBuffer

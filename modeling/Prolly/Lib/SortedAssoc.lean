import Mathlib.Data.List.Lex
import Mathlib.Data.List.Basic
import Mathlib.Data.List.TakeWhile
import Mathlib.Order.Lattice

/-!
# Sorted association lists

A finite map over a linear order, written out as the list of its entries in
strictly increasing key order. `lookup` reads the map off the list, and a sorted
list is determined by what it looks up (`Sorted.ext`).

Everything here is about lists and orders alone.
-/

namespace SortedAssoc

open List

variable {K V : Type*}

def firstKey [Inhabited K] (es : List (K × V)) : K := (es.head?.map Prod.fst).getD default

@[simp] theorem firstKey_cons [Inhabited K] (e : K × V) (es : List (K × V)) :
    firstKey (e :: es) = e.1 := rfl

theorem firstKey_append [Inhabited K] {xs : List (K × V)} (h : xs ≠ []) (ys : List (K × V)) :
    firstKey (xs ++ ys) = firstKey xs := by
  cases xs with
  | nil => exact absurd rfl h
  | cons x xs => rfl

theorem exists_mem_firstKey [Inhabited K] {es : List (K × V)} (h : es ≠ []) :
    ∃ e ∈ es, e.1 = firstKey es := by
  cases es with
  | nil => exact absurd rfl h
  | cons x xs => exact ⟨x, mem_cons_self, rfl⟩

theorem zip_fst_snd (es : List (K × V)) : (es.map Prod.fst).zip (es.map Prod.snd) = es := by
  induction es with
  | nil => rfl
  | cons e es ih => simp [ih]

variable [LinearOrder K] {k : K} {es xs ys : List (K × V)} {v : V}

/-- Entries in strictly increasing key order. -/
def Sorted (es : List (K × V)) : Prop := es.Pairwise (fun a b => a.1 < b.1)

instance (es : List (K × V)) : Decidable (Sorted es) :=
  inferInstanceAs (Decidable (es.Pairwise _))

/-- Every key of `es` lies below `k`. -/
def Below (es : List (K × V)) (k : K) : Prop := ∀ e ∈ es, e.1 < k

/-- The value the list holds for a key. -/
def lookup : List (K × V) → K → Option V
  | [], _ => none
  | (k', v) :: es, k => if k' = k then some v else lookup es k

@[simp] theorem lookup_nil (k : K) : lookup ([] : List (K × V)) k = none := rfl

theorem lookup_cons (k' : K) (v : V) (es : List (K × V)) (k : K) :
    lookup ((k', v) :: es) k = if k' = k then some v else lookup es k := rfl

@[simp] theorem lookup_cons_self (k : K) (v : V) (es : List (K × V)) :
    lookup ((k, v) :: es) k = some v := by
  simp [lookup]

theorem lookup_cons_ne {k' : K} (h : k' ≠ k) (v : V) (es : List (K × V)) :
    lookup ((k', v) :: es) k = lookup es k := by
  simp [lookup, h]

theorem lookup_append (xs ys : List (K × V)) (k : K) :
    lookup (xs ++ ys) k = (lookup xs k).or (lookup ys k) := by
  induction xs with
  | nil => simp
  | cons x xs ih =>
    obtain ⟨k', v⟩ := x
    by_cases h : k' = k
    · simp [lookup, h]
    · simp [lookup, h, ih]

theorem lookup_eq_none : lookup es k = none ↔ ∀ e ∈ es, e.1 ≠ k := by
  induction es with
  | nil => simp
  | cons e es ih =>
    obtain ⟨k', v⟩ := e
    by_cases h : k' = k
    · simp [lookup, h]
    · simp [lookup, h, ih]

theorem mem_of_lookup (h : lookup es k = some v) : (k, v) ∈ es := by
  induction es with
  | nil => simp at h
  | cons e es ih =>
    obtain ⟨k', v'⟩ := e
    by_cases hk : k' = k
    · subst hk
      simp only [lookup_cons_self, Option.some.injEq] at h
      simp [h]
    · rw [lookup_cons_ne hk] at h
      exact .tail _ (ih h)

theorem lookup_eq_none_of_below (h : Below es k) : lookup es k = none :=
  lookup_eq_none.mpr fun e he => (h e he).ne

/-! ### Sortedness -/

@[simp] theorem sorted_nil : Sorted ([] : List (K × V)) := List.Pairwise.nil

@[simp] theorem sorted_singleton (e : K × V) : Sorted [e] := pairwise_singleton _ _

theorem sorted_cons {e : K × V} : Sorted (e :: es) ↔ (∀ e' ∈ es, e.1 < e'.1) ∧ Sorted es :=
  pairwise_cons

theorem sorted_append : Sorted (xs ++ ys) ↔ Sorted xs ∧ Sorted ys ∧ ∀ x ∈ xs, ∀ y ∈ ys, x.1 < y.1 :=
  pairwise_append

theorem Sorted.tail {e : K × V} {es : List (K × V)} (h : Sorted (e :: es)) : Sorted es :=
  (sorted_cons.mp h).2

theorem Sorted.filter (h : Sorted es) (p : K × V → Bool) : Sorted (es.filter p) :=
  List.Pairwise.filter p h

theorem Sorted.sublist (hs : xs.Sublist ys) (h : Sorted ys) : Sorted xs :=
  List.Pairwise.sublist hs h

/-- Sortedness only looks at the keys. -/
theorem sorted_iff_keys : Sorted es ↔ (es.map Prod.fst).Pairwise (· < ·) := by
  simp [Sorted, pairwise_map]

theorem Sorted.lookup_eq_some (hs : Sorted es) : lookup es k = some v ↔ (k, v) ∈ es := by
  refine ⟨mem_of_lookup, fun h => ?_⟩
  induction es with
  | nil => simp at h
  | cons e es ih =>
    obtain ⟨k', v'⟩ := e
    obtain ⟨hlt, hs⟩ := sorted_cons.mp hs
    rcases mem_cons.mp h with h | h
    · cases h; simp
    · rw [lookup_cons_ne (hlt _ h).ne]
      exact ih hs h

/-- A sorted list is determined by what it looks up. -/
theorem Sorted.ext (hx : Sorted xs) (hy : Sorted ys) (h : ∀ k, lookup xs k = lookup ys k) :
    xs = ys := by
  have hmem : ∀ e, e ∈ xs ↔ e ∈ ys := by
    rintro ⟨k, v⟩
    rw [← hx.lookup_eq_some, ← hy.lookup_eq_some, h]
  have hperm : xs.Perm ys :=
    (perm_ext_iff_of_nodup (hx.imp fun h => by rintro rfl; exact h.false)
      (hy.imp fun h => by rintro rfl; exact h.false)).mpr hmem
  exact hperm.eq_of_pairwise (fun a b _ _ hab hba => absurd hab hba.not_gt) hx hy

/-- Looking up in the entries whose keys satisfy `p`. -/
theorem lookup_filter_keys (p : K → Bool) (es : List (K × V)) (k : K) :
    lookup (es.filter fun e => p e.1) k = if p k then lookup es k else none := by
  induction es with
  | nil => simp
  | cons e es ih =>
    obtain ⟨k', v⟩ := e
    by_cases hk : k' = k
    · subst hk
      by_cases hp : p k' <;> simp_all
    · by_cases hp : p k'
      · simp [hp, lookup_cons_ne hk, ih]
      · simp [hp, lookup_cons_ne hk, ih]

/-! ### Lists cut into parts

A sorted list given as the concatenation of non-empty parts is searched by the
first keys of the parts. -/

/-- The first key of a sorted list is its least. -/
theorem Sorted.firstKey_le [Inhabited K] {es : List (K × V)} (hs : Sorted es) {e : K × V}
    (he : e ∈ es) : firstKey es ≤ e.1 := by
  cases es with
  | nil => simp at he
  | cons x xs =>
    rcases mem_cons.mp he with rfl | he
    · exact le_rfl
    · exact ((sorted_cons.mp hs).1 e he).le

theorem lookup_eq_none_of_lt_firstKey [Inhabited K] {es : List (K × V)} (hs : Sorted es) {k : K}
    (h : k < firstKey es) : lookup es k = none :=
  lookup_eq_none.mpr fun _ he => (h.trans_le (hs.firstKey_le he)).ne'

/-- Either `k` is below every rank, or some element is the last one at or below it. -/
theorem split_last_le {α : Type*} (rank : α → K) (k : K) (xs : List α) :
    (∀ x ∈ xs, k < rank x) ∨
      ∃ pre x post, xs = pre ++ x :: post ∧ rank x ≤ k ∧ ∀ y ∈ post, k < rank y := by
  induction xs with
  | nil => exact .inl (by simp)
  | cons x xs ih =>
    rcases ih with hrest | ⟨pre, y, post, rfl, hy, hpost⟩
    · rcases lt_or_ge k (rank x) with hx | hx
      · exact .inl (forall_mem_cons.mpr ⟨hx, hrest⟩)
      · exact .inr ⟨[], x, xs, rfl, hx, hrest⟩
    · exact .inr ⟨x :: pre, y, post, rfl, hy, hpost⟩

/-- Only the part whose first key is the last one at or below `k` can hold `k`. -/
theorem lookup_middle [Inhabited K] {xs ys zs : List (K × V)} (hs : Sorted (xs ++ ys ++ zs))
    {k : K} (hy : ys ≠ []) (hk : firstKey ys ≤ k) (hz : zs ≠ [] → k < firstKey zs) :
    lookup (xs ++ ys ++ zs) k = lookup ys k := by
  obtain ⟨hxy, hzs, -⟩ := sorted_append.mp hs
  obtain ⟨-, -, hlt⟩ := sorted_append.mp hxy
  have hx : lookup xs k = none := by
    obtain ⟨e, he, hek⟩ := exists_mem_firstKey hy
    exact lookup_eq_none_of_below fun x hx => (hlt x hx e he).trans_le (hek ▸ hk)
  have hz' : lookup zs k = none := by
    by_cases hne : zs = []
    · simp [hne]
    · exact lookup_eq_none_of_lt_firstKey hzs (hz hne)
  rw [lookup_append, lookup_append, hx, hz']
  simp

/-! ### Partition points -/

section PartitionPoint

variable {α : Type*} {P : α → Bool} {xs : List α}

/-- Where `P` holds of a prefix only, `takeWhile` keeps everything it holds of. -/
theorem takeWhile_eq_filter (h : xs.Pairwise fun a b => P b = true → P a = true) :
    xs.takeWhile P = xs.filter P := by
  induction xs with
  | nil => rfl
  | cons x xs ih =>
    obtain ⟨hx, hxs⟩ := pairwise_cons.mp h
    by_cases hp : P x = true
    · rw [takeWhile_cons_of_pos hp, filter_cons_of_pos hp, ih hxs]
    · rw [takeWhile_cons_of_neg hp, filter_cons_of_neg hp,
        filter_eq_nil_iff.mpr fun y hy hpy => hp (hx y hy hpy)]

/-- Dropping the prefix `P` holds of leaves everything it does not hold of. -/
theorem drop_takeWhile_eq_filter (h : xs.Pairwise fun a b => P b = true → P a = true) :
    xs.drop (xs.takeWhile P).length = xs.filter fun x => !P x := by
  induction xs with
  | nil => rfl
  | cons x xs ih =>
    obtain ⟨hx, hxs⟩ := pairwise_cons.mp h
    by_cases hp : P x = true
    · simp [takeWhile_cons_of_pos hp, hp, ih hxs]
    · rw [takeWhile_cons_of_neg hp, length_nil, drop_zero, eq_comm, filter_eq_self]
      intro y hy
      rcases mem_cons.mp hy with rfl | hy
      · simpa using hp
      · simpa using fun hpy => hp (hx y hy hpy)

theorem take_length_takeWhile : xs.take (xs.takeWhile P).length = xs.takeWhile P :=
  (prefix_iff_eq_take.mp <| takeWhile_prefix P).symm

/-- Two partition points cut out what lies between them. -/
theorem drop_take_partition {Q : α → Bool} (hP : xs.Pairwise fun a b => P b = true → P a = true)
    (hQ : xs.Pairwise fun a b => Q b = true → Q a = true)
    (hPQ : ∀ x ∈ xs, P x = true → Q x = true) :
    (xs.take (xs.takeWhile Q).length).drop (xs.takeWhile P).length =
      xs.filter fun x => Q x && !P x := by
  have hsub : (xs.filter Q).Pairwise fun a b => P b = true → P a = true := hP.sublist filter_sublist
  have hlen : xs.takeWhile P = (xs.filter Q).takeWhile P := by
    rw [takeWhile_eq_filter hP, takeWhile_eq_filter hsub, filter_filter]
    exact filter_congr fun x hx => by
      by_cases hp : P x = true
      · simp [hp, hPQ x hx hp]
      · simp [hp]
  rw [take_length_takeWhile, takeWhile_eq_filter hQ, hlen,
    drop_takeWhile_eq_filter hsub, filter_filter]
  exact filter_congr fun x _ => Bool.and_comm _ _

end PartitionPoint

end SortedAssoc

import Prolly.Lib.SortedAssoc

/-!
# Sorted maps

Finite maps over a linear order, kept as their entries in key order: what a balanced
tree map computes, without the tree. Two maps are equal when they hold the same values
(`SortedMap.ext`), so updates are compared key by key.

`set` writes or removes, as an optional value says, and `setAll` does so for a list of
updates; the updates of a map (`overlay`) are done in one go.
-/

/-- A finite map as its entries in key order. -/
structure SortedMap (K V : Type) [LinearOrder K] where
  entries : List (K × V)
  sorted : SortedAssoc.Sorted entries

namespace SortedMap

open SortedAssoc
open List hiding lookup lookup_append lookup_cons

variable {K V : Type} [LinearOrder K]

/-- The map with no entries. -/
def empty : SortedMap K V := ⟨[], sorted_nil⟩

instance : EmptyCollection (SortedMap K V) := ⟨empty⟩

instance [DecidableEq V] : DecidableEq (SortedMap K V) := fun m m' =>
  decidable_of_iff (m.entries = m'.entries)
    ⟨fun h => by cases m; cases m'; cases h; rfl, fun h => by rw [h]⟩

variable (m : SortedMap K V) (k : K)

/-- The value of a key. -/
def get? : Option V := lookup m.entries k

/-- Put a value in place of the one the key has. -/
def insert (v : V) : SortedMap K V where
  entries := m.entries.filter (fun e => e.1 < k) ++ (k, v) :: m.entries.filter (fun e => k < e.1)
  sorted := by
    refine sorted_append.mpr ⟨m.sorted.filter _, sorted_cons.mpr ⟨?_, m.sorted.filter _⟩, ?_⟩
    · intro e he
      exact of_decide_eq_true (mem_filter.mp he).2
    · intro e he e' he'
      have hlt : e.1 < k := of_decide_eq_true (mem_filter.mp he).2
      rcases mem_cons.mp he' with rfl | he'
      · exact hlt
      · exact hlt.trans (of_decide_eq_true (mem_filter.mp he').2)

/-- Remove a key. -/
def erase : SortedMap K V where
  entries := m.entries.filter (fun e => e.1 ≠ k)
  sorted := m.sorted.filter _

/-- The entries that satisfy a condition. -/
def filter (m : SortedMap K V) (p : K → V → Bool) : SortedMap K V where
  entries := m.entries.filter fun e => p e.1 e.2
  sorted := m.sorted.filter _

/-- Whether the map has the key. -/
def contains : Bool := (m.get? k).isSome

def size : Nat := m.entries.length

/-- The values in key order. -/
def values : List V := m.entries.map Prod.snd

variable (m : SortedMap K V) (k k' : K) {v : V} (updates : SortedMap K (Option V))

@[simp] theorem get?_empty : (∅ : SortedMap K V).get? k = none := rfl

theorem mem_entries {k : K} : (k, v) ∈ m.entries ↔ m.get? k = some v :=
  m.sorted.lookup_eq_some.symm

@[ext] theorem ext {m m' : SortedMap K V} (h : ∀ k, m.get? k = m'.get? k) : m = m' := by
  cases m with
  | mk es hs =>
    cases m' with
    | mk es' hs' =>
      obtain rfl : es = es' := hs.ext hs' h
      rfl

@[grind =] theorem get?_insert (v : V) :
    (m.insert k v).get? k' = if k = k' then some v else m.get? k' := by
  have hbelow := lookup_filter_keys (fun a => decide (a < k)) m.entries k'
  have habove := lookup_filter_keys (fun a => decide (k < a)) m.entries k'
  unfold get? insert
  dsimp only
  rw [lookup_append, hbelow, lookup_cons, habove]
  rcases lt_trichotomy k' k with hlt | rfl | hlt
  · rw [if_neg hlt.ne', if_neg hlt.ne', if_pos (decide_eq_true hlt)]
    simp [hlt.not_gt]
  · simp
  · rw [if_neg hlt.ne, if_neg hlt.ne, if_pos (decide_eq_true hlt)]
    simp [hlt.not_gt]

@[grind =] theorem get?_erase : (m.erase k).get? k' = if k = k' then none else m.get? k' := by
  have h := lookup_filter_keys (fun a => decide (a ≠ k)) m.entries k'
  unfold get? erase
  dsimp only
  rw [h]
  by_cases hk : k = k'
  · simp [hk]
  · simp [hk, Ne.symm hk]

theorem get?_filter {p : K → V → Bool} {k : K} :
    (m.filter p).get? k = some v ↔ m.get? k = some v ∧ p k v = true := by
  rw [← mem_entries, ← mem_entries]
  exact mem_filter

theorem mem_values : v ∈ m.values ↔ ∃ k, m.get? k = some v := by
  simp only [values, mem_map, Prod.exists, exists_eq_right, mem_entries]

/-! ### Updates -/

/-- Write the value, or remove the key where there is none. -/
def set (v : Option V) : SortedMap K V :=
  match v with
  | some v => m.insert k v
  | none => m.erase k

@[grind =] theorem get?_set (v : Option V) :
    (m.set k v).get? k' = if k = k' then v else m.get? k' := by
  cases v with
  | none => exact m.get?_erase k k'
  | some v => exact m.get?_insert k k' v

def setAll (updates : List (K × Option V)) : SortedMap K V :=
  updates.foldl (fun m update => m.set update.1 update.2) m

theorem get?_setAll (updates : List (K × Option V)) (hs : Sorted updates) (k : K) :
    (m.setAll updates).get? k = (lookup updates k).getD (m.get? k) := by
  induction updates generalizing m with
  | nil => rfl
  | cons update updates ih =>
    obtain ⟨k', v⟩ := update
    obtain ⟨hlt, hs⟩ := sorted_cons.mp hs
    show ((m.set k' v).setAll updates).get? k = _
    rw [ih (m.set k' v) hs, lookup_cons, get?_set]
    by_cases hk : k' = k
    · have hnone : lookup updates k = none := lookup_eq_none.mpr fun e he => hk ▸ (hlt e he).ne'
      simp [hk, hnone]
    · simp [hk]

/-- A key that all its updates leave with one value, the one it had if it has none. -/
theorem get?_setAll_of_forall {updates : List (K × Option V)} {k : K} {v : Option V}
    (hall : ∀ u ∈ updates, u.1 = k → u.2 = v) (hv : m.get? k = v ∨ ∃ u ∈ updates, u.1 = k) :
    (m.setAll updates).get? k = v := by
  induction updates generalizing m with
  | nil => simpa [setAll] using hv
  | cons update updates ih =>
    refine ih (m.set update.1 update.2) (fun u hu => hall u (.tail _ hu)) ?_
    by_cases hk : update.1 = k
    · left
      rw [get?_set, if_pos hk]
      exact hall update mem_cons_self hk
    · rw [get?_set, if_neg hk]
      rcases hv with hv | ⟨u, hu, huk⟩
      · exact .inl hv
      · rcases mem_cons.mp hu with rfl | hu
        · exact absurd huk hk
        · exact .inr ⟨u, hu, huk⟩

/-- The entries of a list, later ones in place of earlier ones. -/
def ofList (es : List (K × V)) : SortedMap K V := es.foldl (fun m e => m.insert e.1 e.2) ∅

/-- A list with one value for each key is what its map holds. -/
theorem get?_ofList {es : List (K × V)} (hes : ∀ k v v', (k, v) ∈ es → (k, v') ∈ es → v = v')
    {k : K} : (ofList es).get? k = some v ↔ (k, v) ∈ es := by
  have hset : ofList es = (∅ : SortedMap K V).setAll (es.map fun e => (e.1, some e.2)) :=
    (foldl_map (f := fun e : K × V => (e.1, some e.2))
      (g := fun (m : SortedMap K V) update => m.set update.1 update.2)).symm
  have hsome : ∀ {w}, (k, w) ∈ es → (ofList es).get? k = some w := by
    intro w hw
    rw [hset]
    refine get?_setAll_of_forall ∅ (fun u hu huk => ?_)
      (.inr ⟨(k, some w), mem_map.mpr ⟨_, hw, rfl⟩, rfl⟩)
    obtain ⟨e, he, rfl⟩ := mem_map.mp hu
    obtain rfl : e.1 = k := huk
    exact congrArg some (hes e.1 e.2 w he hw)
  refine ⟨fun h => ?_, hsome⟩
  by_cases hk : ∃ w, (k, w) ∈ es
  · obtain ⟨w, hw⟩ := hk
    rw [hsome hw, Option.some.injEq] at h
    exact h ▸ hw
  · have hnone : (ofList es).get? k = none := by
      rw [hset]
      refine get?_setAll_of_forall ∅ (fun u hu huk => ?_) (.inl rfl)
      obtain ⟨e, he, rfl⟩ := mem_map.mp hu
      obtain rfl : e.1 = k := huk
      exact absurd ⟨e.2, he⟩ hk
    rw [hnone] at h
    cases h

def overlay (updates : SortedMap K (Option V)) : SortedMap K V :=
  m.setAll updates.entries

@[grind =] theorem get?_overlay (k : K) :
    (m.overlay updates).get? k = (updates.get? k).getD (m.get? k) :=
  m.get?_setAll updates.entries updates.sorted k

theorem overlay_insert (k : K) (v : Option V) :
    m.overlay (updates.insert k v) = (m.overlay updates).set k v := by
  ext1 k'
  grind

/-! ### Sizes -/

theorem size_erase : (m.erase k).size + (m.get? k).isSome.toNat = m.size := by
  obtain ⟨es, hs⟩ := m
  show (es.filter fun e => e.1 ≠ k).length + (lookup es k).isSome.toNat = es.length
  induction es with
  | nil => rfl
  | cons e es ih =>
    obtain ⟨k', v⟩ := e
    obtain ⟨hlt, hs⟩ := sorted_cons.mp hs
    have ih := ih hs
    rw [lookup_cons]
    by_cases hk : k' = k
    · have hnone : lookup es k = none := lookup_eq_none.mpr fun e he => hk ▸ (hlt e he).ne'
      rw [hnone] at ih
      simpa [hk] using ih
    · rw [filter_cons_of_pos (by simpa using hk), if_neg hk, length_cons, length_cons]
      omega

theorem size_insert (v : V) : (m.insert k v).size = (m.erase k).size + 1 := by
  obtain ⟨es, hs⟩ := m
  show (es.filter (fun e => e.1 < k) ++ (k, v) :: es.filter (fun e => k < e.1)).length =
    (es.filter fun e => e.1 ≠ k).length + 1
  have hcount : (es.filter (fun e => e.1 < k)).length + (es.filter (fun e => k < e.1)).length =
      (es.filter fun e => e.1 ≠ k).length := by
    clear hs
    induction es with
    | nil => rfl
    | cons e es ih =>
      rcases lt_trichotomy e.1 k with hlt | heq | hlt
      · rw [filter_cons_of_pos (by simpa using hlt), filter_cons_of_neg (by simpa using hlt.le),
          filter_cons_of_pos (by simpa using hlt.ne), length_cons, length_cons]
        omega
      · simpa [heq] using ih
      · rw [filter_cons_of_neg (by simpa using hlt.le), filter_cons_of_pos (by simpa using hlt),
          filter_cons_of_pos (by simpa using hlt.ne'), length_cons, length_cons]
        omega
  simp only [length_append, length_cons]
  omega

/-- What an update does to the number of entries. -/
theorem size_set (v : Option V) :
    (m.set k v).size + (m.get? k).isSome.toNat = m.size + v.isSome.toNat := by
  have herase := m.size_erase k
  cases v with
  | none => exact herase
  | some v =>
    have hinsert := m.size_insert k v
    show (m.insert k v).size + _ = m.size + 1
    omega

end SortedMap

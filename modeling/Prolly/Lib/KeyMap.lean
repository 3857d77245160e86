import Mathlib.Algebra.GroupWithZero.Nat
import Mathlib.Data.List.AList

/-!
# Prolly.Lib.KeyMap

Finite maps: Mathlib's association lists, with the operations on values that a
hash map has (`mapValues`, `filterValues`) and the sum of a weight over the held values (`total`).
-/

abbrev KeyMap (K V : Type) := AList fun _ : K => V

namespace KeyMap

open List

variable {K V : Type}

/-- The sum of a weight over the values. -/
def total (f : V → Nat) (m : KeyMap K V) : Nat := (m.entries.map fun p => f p.2).sum

/-- Change every value. -/
def mapValues (f : V → V) (m : KeyMap K V) : KeyMap K V where
  entries := m.entries.map fun x => ⟨x.1, f x.2⟩
  nodupKeys := by
    have hkeys : (m.entries.map fun x => (⟨x.1, f x.2⟩ : (_ : K) × V)).keys = m.entries.keys := by
      simp only [List.keys, map_map]
      rfl
    rw [List.NodupKeys, hkeys]
    exact m.nodupKeys

/-- Keep the values that pass a test. -/
def filterValues (p : V → Bool) (m : KeyMap K V) : KeyMap K V where
  entries := m.entries.filter fun x => p x.2
  nodupKeys := m.nodupKeys.sublist filter_sublist

theorem total_mapValues {f : V → Nat} {g : V → V} (h : ∀ v, f (g v) = f v) (m : KeyMap K V) :
    (m.mapValues g).total f = m.total f := by
  simp only [total, mapValues, map_map]
  congr 1
  exact map_congr_left fun x _ => h x.2

variable [DecidableEq K] {k : K} {v : V}

theorem lookup_mapValues (g : V → V) (m : KeyMap K V) (k : K) :
    (m.mapValues g).lookup k = (m.lookup k).map g :=
  dlookup_map₂ (f := fun _ => g) (l := m.entries) k

theorem lookup_filterValues (p : V → Bool) (m : KeyMap K V) (k : K) :
    (m.filterValues p).lookup k = (m.lookup k).filter p := by
  ext v
  rw [Option.filter_eq_some_iff, ← Option.mem_def, ← Option.mem_def, AList.lookup, AList.lookup,
    mem_dlookup_iff (m.filterValues p).nodupKeys, mem_dlookup_iff m.nodupKeys, filterValues,
    mem_filter]

theorem lookup_erase_eq_some {m : KeyMap K V} {k' : K} :
    (m.erase k').lookup k = some v ↔ k ≠ k' ∧ m.lookup k = some v := by
  by_cases h : k = k'
  · subst h
    simp [AList.lookup_erase]
  · rw [AList.lookup_erase_ne h]
    exact ⟨fun hv => ⟨h, hv⟩, fun hv => hv.2⟩

theorem total_insert (f : V → Nat) (m : KeyMap K V) (k : K) (v : V) :
    total f (m.insert k v) = f v + total f (m.erase k) := by
  rw [total, AList.entries_insert, map_cons, sum_cons]
  rfl

theorem total_erase (f : V → Nat) (m : KeyMap K V) (h : m.lookup k = some v) :
    total f m = f v + total f (m.erase k) := by
  obtain ⟨b, l1, l2, hl1, hentries, herase⟩ :=
    exists_of_kerase (AList.lookup_isSome.mp (h ▸ rfl : (m.lookup k).isSome))
  have hb : b = v := by
    have hlookup :=
      AList.mem_lookup_iff.mpr (hentries ▸ by simp : (⟨k, b⟩ : (_ : K) × V) ∈ m.entries)
    rw [h] at hlookup
    exact (Option.some.inj hlookup).symm
  have hrest : total f (m.erase k) = ((l1 ++ l2).map fun p => f p.2).sum := by rw [← herase]; rfl
  rw [hrest, total, hentries, hb]
  simp only [map_append, map_cons, sum_append, sum_cons]
  omega

theorem total_erase_of_none (f : V → Nat) (m : KeyMap K V) (h : m.lookup k = none) :
    total f (m.erase k) = total f m := by
  have hentries : (m.erase k).entries = m.entries :=
    kerase_of_notMem_keys (AList.lookup_eq_none.mp h)
  rw [total, total, hentries]

end KeyMap

import Mathlib.Data.List.Sort
import Mathlib.Data.List.Dedup
import Prolly.Basic
import Prolly.Format

/-!
# Prolly.Crdt.Model

Sets of concurrent values (`crdt.rs`), their bytes, and the resolution of a conflict that keeps the
values of both sides.

Values carry no tag. Whether a byte string is a set of values or one value is
decided by trying to parse it (`MultiValueSet.ofValue`), so an application value
may be taken for a set. What parses is characterised by
`MultiValueSet.fromBytes_eq_some`.
-/

namespace Prolly

open PrefixCode (ofBigEndian ofBigEndian_bigEndian ofBigEndian_take)
open List

/-! ### Sets of concurrent values -/

/-- `MultiValueSet`. The field is public, so the values may stand in any order. -/
structure MultiValueSet where
  values : List Bytes
  deriving DecidableEq, Repr

namespace MultiValueSet

def single (value : Bytes) : MultiValueSet := ⟨[value]⟩

/-- `from_values`: `sort`, then `dedup`. -/
def fromValues (values : List Bytes) : MultiValueSet := ⟨(values.insertionSort (· ≤ ·)).dedup⟩

def merge (s other : MultiValueSet) : MultiValueSet := fromValues (s.values ++ other.values)

/-- The values one after the other, each preceded by its length. -/
def encodeValues : List Bytes → Bytes
  | [] => []
  | value :: values => beBytes 4 value.length ++ value ++ encodeValues values

/-- `to_bytes`. `as u32` keeps the low four bytes of a length, as `beBytes 4` does. -/
def toBytes (s : MultiValueSet) : Bytes :=
  let canonical := fromValues s.values
  beBytes 4 canonical.values.length ++ encodeValues canonical.values

/-- The loop of `from_bytes` over the bytes behind `offset`. -/
def readValues : Nat → Bytes → Option (List Bytes × Bytes)
  | 0, rest => some ([], rest)
  | count + 1, rest =>
    if rest.length < 4 then none
    else
      let len := ofBigEndian (rest.take 4)
      let rest := rest.drop 4
      if rest.length < len then none
      else
        match readValues count (rest.drop len) with
        | some (values, unread) => some (rest.take len :: values, unread)
        | none => none

/-- `from_bytes`. -/
def fromBytes (bytes : Bytes) : Option MultiValueSet :=
  if bytes.length < 4 then none
  else
    let count := ofBigEndian (bytes.take 4)
    if (bytes.length - 4) / 4 < count then none
    else
      match readValues count (bytes.drop 4) with
      | some (values, []) => some (fromValues values)
      | _ => none

/-- How `resolve_mv` reads a side: the set it parses as, else the value alone. -/
def ofValue (value : Bytes) : MultiValueSet := (fromBytes value).getD (single value)

end MultiValueSet

/-- `resolve_mv`. -/
def resolveMv (left right : Bytes) : Bytes :=
  ((MultiValueSet.ofValue left).merge (MultiValueSet.ofValue right)).toBytes

/-! ### Canonical sets -/

namespace MultiValueSet

/-- Sorted and without duplicates, as `from_values` leaves them. -/
def Canonical (s : MultiValueSet) : Prop := s.values.Pairwise (· < ·)

variable {values : List Bytes} {v bytes : Bytes} {s t : MultiValueSet}

@[simp] theorem mem_fromValues : v ∈ (fromValues values).values ↔ v ∈ values := by
  simp [fromValues]

theorem fromValues_canonical (values : List Bytes) : (fromValues values).Canonical := by
  have hsorted : (values.insertionSort (· ≤ ·)).dedup.Pairwise (· ≤ ·) :=
    (pairwise_insertionSort (· ≤ ·) values).sublist (dedup_sublist _)
  have hnodup : (values.insertionSort (· ≤ ·)).dedup.Pairwise (· ≠ ·) := nodup_dedup _
  exact (hsorted.and hnodup).imp fun h => lt_of_le_of_ne h.1 h.2

/-- A canonical set is determined by its members. -/
theorem Canonical.ext (hs : s.Canonical) (ht : t.Canonical) (h : ∀ v, v ∈ s.values ↔ v ∈ t.values) :
    s = t := by
  obtain ⟨xs⟩ := s
  obtain ⟨ys⟩ := t
  have hperm : xs.Perm ys :=
    (perm_ext_iff_of_nodup (hs.imp fun h => ne_of_lt h) (ht.imp fun h => ne_of_lt h)).mpr h
  have hlists : xs = ys :=
    hperm.eq_of_pairwise (fun a b _ _ hab hba => absurd hba (lt_asymm hab)) hs ht
  rw [hlists]

theorem Canonical.fromValues_eq (hs : s.Canonical) : fromValues s.values = s :=
  (fromValues_canonical _).ext hs fun _ => mem_fromValues

/-- A set with fewer members is not larger. -/
theorem length_fromValues_le {xs ys : List Bytes} (h : ∀ v ∈ xs, v ∈ ys) :
    (fromValues xs).values.length ≤ (fromValues ys).values.length := by
  have hnodup : (fromValues xs).values.Nodup := (fromValues_canonical xs).imp fun h => ne_of_lt h
  exact (subperm_of_subset hnodup fun v hv =>
    mem_fromValues.mpr (h v (mem_fromValues.mp hv))).length_le

theorem merge_canonical (s t : MultiValueSet) : (s.merge t).Canonical := fromValues_canonical _

@[simp] theorem mem_merge : v ∈ (s.merge t).values ↔ v ∈ s.values ∨ v ∈ t.values := by
  simp [merge]

/-! ### What parses -/

theorem readValues_eq_some {count : Nat} {unread : Bytes} :
    readValues count bytes = some (values, unread) ↔
      values.length = count ∧ (∀ v ∈ values, v.length < 2 ^ 32) ∧
        bytes = encodeValues values ++ unread := by
  induction count generalizing bytes values with
  | zero =>
    cases values with
    | nil => simp [readValues, encodeValues]
    | cons v values => simp [readValues]
  | succ count ih =>
    constructor
    · intro h
      simp only [readValues] at h
      split at h
      · cases h
      split at h
      · cases h
      rename_i hfour hlen
      split at h
      · rename_i vs rest hrec
        cases h
        obtain ⟨hcount, hbound, hrest⟩ := ih.mp hrec
        obtain ⟨hlt, hback⟩ := ofBigEndian_take bytes (not_lt.mp hfour)
        have htake : ((bytes.drop 4).take (ofBigEndian (bytes.take 4))).length =
            ofBigEndian (bytes.take 4) := by
          rw [length_take]; omega
        refine ⟨by simp [hcount], ?_, ?_⟩
        · intro v hv
          rcases mem_cons.mp hv with rfl | hv
          · rw [htake]; simpa using hlt
          · exact hbound v hv
        · rw [encodeValues, htake, beBytes, hback, append_assoc, append_assoc, ← hrest,
            take_append_drop, take_append_drop]
      · cases h
    · rintro ⟨hcount, hbound, rfl⟩
      obtain _ | ⟨v, values⟩ := values
      · cases hcount
      have hv : v.length < 256 ^ 4 := by simpa using hbound v mem_cons_self
      have htail := ih.mpr ⟨Nat.succ.inj hcount, fun w hw => hbound w (.tail _ hw), rfl⟩
      have hhead : (encodeValues (v :: values) ++ unread).take 4 = beBytes 4 v.length := by
        rw [encodeValues, append_assoc, append_assoc, take_append_of_le_length (by simp)]
        exact take_of_length_le (by simp)
      have hrest : (encodeValues (v :: values) ++ unread).drop 4
          = v ++ (encodeValues values ++ unread) := by
        rw [encodeValues, append_assoc, append_assoc,
          drop_append_of_le_length (by simp), drop_of_length_le (by simp), nil_append]
      have hlong : ¬ (encodeValues (v :: values) ++ unread).length < 4 := by
        simp [encodeValues]
      simp only [readValues]
      rw [if_neg hlong, hhead, hrest, beBytes, ofBigEndian_bigEndian hv,
        if_neg (by simp), drop_left, take_left, htail]

theorem length_encodeValues (values : List Bytes) :
    4 * values.length ≤ (encodeValues values).length := by
  induction values with
  | nil => simp [encodeValues]
  | cons v values ih => simp [encodeValues]; omega

theorem length_lt_encodeValues (hv : v ∈ values) : v.length < (encodeValues values).length := by
  induction values with
  | nil => cases hv
  | cons w values ih =>
    rcases mem_cons.mp hv with rfl | hv
    · simp [encodeValues]; omega
    · have := ih hv
      simp [encodeValues]; omega

/-- The list of values a byte string spells, before they are sorted. -/
structure Spells (bytes : Bytes) (values : List Bytes) : Prop where
  count : values.length < 2 ^ 32
  bounded : ∀ v ∈ values, v.length < 2 ^ 32
  bytes_eq : bytes = beBytes 4 values.length ++ encodeValues values

theorem Spells.length_lt (h : Spells bytes values) (hv : v ∈ values) : v.length < bytes.length := by
  have := length_lt_encodeValues hv
  rw [h.bytes_eq]
  simp
  omega

theorem fromBytes_eq_some :
    fromBytes bytes = some s ↔ ∃ values, Spells bytes values ∧ s = fromValues values := by
  constructor
  · intro h
    simp only [fromBytes] at h
    split at h
    · cases h
    split at h
    · cases h
    rename_i hfour _
    split at h
    · rename_i values hread
      cases h
      obtain ⟨hcount, hbound, hrest⟩ := readValues_eq_some.mp hread
      obtain ⟨hlt, hback⟩ := ofBigEndian_take bytes (not_lt.mp hfour)
      refine ⟨values, ⟨by rw [hcount]; simpa using hlt, hbound, ?_⟩, rfl⟩
      rw [append_nil] at hrest
      rw [hcount, beBytes, hback, ← hrest, take_append_drop]
    · cases h
  · rintro ⟨values, ⟨hcount, hbound, rfl⟩, rfl⟩
    have hlt : values.length < 256 ^ 4 := by simpa using hcount
    have hfit := length_encodeValues values
    have hread : readValues values.length (encodeValues values) = some (values, []) :=
      readValues_eq_some.mpr ⟨rfl, hbound, (append_nil _).symm⟩
    have hhead : (beBytes 4 values.length ++ encodeValues values).take 4
        = beBytes 4 values.length := by
      rw [take_append_of_le_length (by simp)]
      exact take_of_length_le (by simp)
    have hrest : (beBytes 4 values.length ++ encodeValues values).drop 4 = encodeValues values := by
      rw [drop_append_of_le_length (by simp), drop_of_length_le (by simp), nil_append]
    simp only [fromBytes]
    rw [if_neg (by simp), hhead, hrest, beBytes, ofBigEndian_bigEndian hlt,
      if_neg (by simp; omega), hread]

/-- Counts and lengths that fit the four bytes they are written in. -/
structure Fits (s : MultiValueSet) : Prop where
  count : (fromValues s.values).values.length < 2 ^ 32
  bounded : ∀ v ∈ s.values, v.length < 2 ^ 32

instance (s : MultiValueSet) : Decidable s.Fits :=
  decidable_of_iff
    ((fromValues s.values).values.length < 2 ^ 32 ∧ ∀ v ∈ s.values, v.length < 2 ^ 32)
    ⟨fun h => ⟨h.1, h.2⟩, fun h => ⟨h.count, h.bounded⟩⟩

theorem Fits.spells (h : s.Fits) : Spells s.toBytes (fromValues s.values).values where
  count := h.count
  bounded v hv := h.bounded v (mem_fromValues.mp hv)
  bytes_eq := rfl

/-- A set that fits is read back from its bytes. -/
theorem fromBytes_toBytes (h : s.Fits) : fromBytes s.toBytes = some (fromValues s.values) :=
  fromBytes_eq_some.mpr ⟨_, h.spells, ((fromValues_canonical _).fromValues_eq).symm⟩

theorem Fits.mono (h : t.Fits) (hsub : ∀ v ∈ s.values, v ∈ t.values) : s.Fits where
  count := lt_of_le_of_lt (length_fromValues_le hsub) h.count
  bounded v hv := h.bounded v (hsub v hv)

theorem ofValue_canonical (value : Bytes) : (ofValue value).Canonical := by
  unfold ofValue
  cases h : fromBytes value with
  | none => exact pairwise_singleton _ _
  | some s =>
    obtain ⟨values, -, rfl⟩ := fromBytes_eq_some.mp h
    exact fromValues_canonical values

theorem ofValue_toBytes (h : s.Fits) : ofValue s.toBytes = fromValues s.values := by
  rw [ofValue, fromBytes_toBytes h, Option.getD_some]

end MultiValueSet

end Prolly

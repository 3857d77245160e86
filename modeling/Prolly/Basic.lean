import Mathlib.Data.List.Lex
import Prolly.Lib.EntryDiff

/-!
# Prolly.Basic

The vocabulary of the crate: byte strings in lexicographic order, content
identifiers, errors, mutations, differences and conflicts.

Two digests come from outside the repository (`sha2` and `xxhash`). They are the
two fields of `Digests`; nothing about them is built in. Where a result needs
SHA-256 to be collision free, it says so for the byte strings involved
(a function into 32 bytes is injective on no infinite set).
-/

namespace Prolly

open List

/-- `Vec<u8>`. -/
abbrev Bytes := List UInt8

/-- Bytes are ordered by value, so that `Bytes` carries the lexicographic order of
Rust's `[u8]`. -/
instance linearOrderByte : LinearOrder UInt8 where
  le_refl := UInt8.le_refl
  le_trans _ _ _ := UInt8.le_trans
  le_antisymm _ _ := UInt8.le_antisymm
  le_total := UInt8.le_total
  lt_iff_le_not_ge a b := by
    simp only [UInt8.le_iff_toNat_le, UInt8.lt_iff_toNat_lt]
    omega
  toDecidableLE := inferInstance
  toDecidableLT := inferInstance
  toDecidableEq := inferInstance

/-- Content identifier: a 32-byte SHA-256 digest. -/
structure Cid where
  bytes : Bytes
  size : bytes.length = 32
  deriving DecidableEq

/-- The identifier that is one byte repeated. -/
def Cid.filled (byte : UInt8) : Cid := ⟨List.replicate 32 byte, length_replicate⟩

@[ext] theorem Cid.ext {a b : Cid} (h : a.bytes = b.bytes) : a = b := by
  cases a; cases b; simpa using h

/-- Identifiers are ordered by their bytes. -/
instance : LinearOrder Cid where
  le a b := a.bytes ≤ b.bytes
  lt a b := a.bytes < b.bytes
  le_refl a := le_refl a.bytes
  le_trans _ _ _ h h' := le_trans h h'
  le_antisymm _ _ h h' := Cid.ext (le_antisymm h h')
  le_total a b := le_total a.bytes b.bytes
  lt_iff_le_not_ge _ _ := lt_iff_le_not_ge
  toDecidableLE a b := inferInstanceAs (Decidable (a.bytes ≤ b.bytes))
  toDecidableLT a b := inferInstanceAs (Decidable (a.bytes < b.bytes))
  toDecidableEq := inferInstance

/-- `Cid(child.try_into()?)`: 32 bytes or nothing. -/
def Cid.ofBytes (b : Bytes) : Option Cid :=
  if h : b.length = 32 then some ⟨b, h⟩ else none

@[simp] theorem Cid.ofBytes_bytes (c : Cid) : Cid.ofBytes c.bytes = some c := by
  simp [Cid.ofBytes, c.size]

/-- The hash functions the crate takes from other crates. -/
structure Digests where
  /-- `sha2::Sha256::digest`, read as a content identifier. -/
  sha256 : Bytes → Cid
  /-- `xxhash_rust::xxh64::xxh64(data, seed)`. -/
  xxh64 : Bytes → UInt64 → UInt64

abbrev Entry := Bytes × Bytes

/-- `Mutation`. -/
inductive Mutation where
  | upsert (key val : Bytes)
  | delete (key : Bytes)
  deriving DecidableEq, Repr

namespace Mutation

def key : Mutation → Bytes
  | upsert key _ => key
  | delete key => key

def isDelete : Mutation → Bool
  | upsert _ _ => false
  | delete _ => true

def value : Mutation → Option Bytes
  | upsert _ val => some val
  | delete _ => none

variable (k v : Bytes)

@[simp] theorem key_upsert : (upsert k v).key = k := rfl
@[simp] theorem key_delete : (delete k).key = k := rfl

end Mutation

/-- `Diff`. -/
abbrev Diff := SortedAssoc.Diff Bytes Bytes

/-- `Conflict`: the three values of a key, absence included. -/
structure Conflict where
  key : Bytes
  base : Option Bytes
  left : Option Bytes
  right : Option Bytes
  deriving DecidableEq, Repr

/-- The errors the modelled functions return. `capacityOverflow` stands for the panic of
`Vec::with_capacity`, and `outOfFuel` is the model's own: a loop whose iteration bound was too
small. -/
inductive Error where
  | notFound (cid : Cid)
  | invalidNode
  | invalidFormat (message : String)
  | deserialize (message : String)
  | formatMismatch
  | entryTooLarge (encodedBytes limit : Nat)
  | cidMismatch (expected actual : Cid)
  | conflict (conflict : Conflict)
  | unsortedInput (previous next : Bytes)
  | capacityOverflow
  | outOfFuel
  deriving DecidableEq

/-- `Result<T, Error>`. -/
abbrev Result (α : Type) := Except Error α

/-- A vector of so many elements of `size` bytes has at most `isize::MAX` bytes. -/
def VecFits (size len : Nat) : Prop := size * len ≤ 0x7fffffffffffffff

instance (size len : Nat) : Decidable (VecFits size len) := inferInstanceAs (Decidable (_ ≤ _))

/-- `Vec::with_capacity`, which panics where no vector fits. -/
def withCapacity (size len : Nat) : Result Unit :=
  if VecFits size len then .ok () else .error .capacityOverflow

/-- `size_of::<(Vec<u8>, Vec<u8>)>()`. -/
def entrySize : Nat := 48

/-- `size_of::<Diff>()`. -/
def diffSize : Nat := 72

namespace Result

variable {ε α β : Type} {x : Except ε α} {f : α → Except ε β} {b : β} (a : α) {xs : List α}

/-- A computation with `?` succeeds exactly when its parts do. -/
theorem bind_eq_ok : (x >>= f) = .ok b ↔ ∃ a, x = .ok a ∧ f a = .ok b := by
  cases x with
  | error e => simp [bind, Except.bind]
  | ok a => simp [bind, Except.bind]

theorem of_bind (h : (x >>= f) = .ok b) : ∃ a, x = .ok a ∧ f a = .ok b := bind_eq_ok.mp h

@[simp] theorem ok_bind (f : α → Except ε β) : ((Except.ok a : Except ε α) >>= f) = f a := rfl

@[simp] theorem error_bind (e : ε) (f : α → Except ε β) :
    ((Except.error e : Except ε α) >>= f) = .error e := rfl

@[simp] theorem pure_eq : (pure a : Except ε α) = .ok a := rfl

theorem map_eq_ok {f : α → β} : x.map f = .ok b ↔ ∃ a, x = .ok a ∧ f a = b := by
  cases x with
  | error e => simp [Except.map]
  | ok a => simp [Except.map]

/-- A loop whose every iteration succeeds. -/
theorem mapM_eq_ok {g : α → β} (h : ∀ x ∈ xs, f x = .ok (g x)) : xs.mapM f = .ok (xs.map g) := by
  induction xs with
  | nil => rfl
  | cons x xs ih =>
    rw [mapM_cons, h x mem_cons_self, ok_bind, ih fun y hy => h y (.tail _ hy)]
    rfl

/-- A loop whose iterations all succeed. -/
theorem exists_mapM (h : ∀ x ∈ xs, ∃ y, f x = .ok y) : ∃ ys, xs.mapM f = .ok ys := by
  induction xs with
  | nil => exact ⟨[], rfl⟩
  | cons x xs ih =>
    obtain ⟨y, hy⟩ := h x mem_cons_self
    obtain ⟨ys, hys⟩ := ih fun z hz => h z (.tail _ hz)
    exact ⟨y :: ys, by rw [mapM_cons, hy, ok_bind, hys]; rfl⟩

/-- The results of a loop are those of its iterations. -/
theorem of_mapM {ys : List β} (h : xs.mapM f = .ok ys) :
    (∀ x ∈ xs, ∃ y ∈ ys, f x = .ok y) ∧ ∀ y ∈ ys, ∃ x ∈ xs, f x = .ok y := by
  induction xs generalizing ys with
  | nil =>
    cases h
    simp
  | cons x xs ih =>
    rw [mapM_cons] at h
    obtain ⟨y, hy, h⟩ := of_bind h
    obtain ⟨ys, hys, h⟩ := of_bind h
    cases h
    have hrest := ih hys
    simp only [mem_cons]
    grind

end Result

export Result (bind_eq_ok of_bind ok_bind error_bind pure_eq map_eq_ok mapM_eq_ok exists_mapM
  of_mapM)

end Prolly

import Mathlib.Data.List.Basic
import Mathlib.Logic.Function.Basic
import Mathlib.Tactic.Positivity
import Mathlib.Tactic.Ring

/-!
# Prefix codes

An encoder is a prefix code when an encoded value can be cancelled from the front
of a longer word without losing its boundary. Prefix codes are injective and
compose by concatenation, which is how a record format is shown injective field
by field.

The numbers used are LEB128 (`leb128`, seven bits a byte, least significant
first) and fixed-width big-endian (`bigEndian`).
-/

namespace PrefixCode

open List

variable {A α β : Type*} {n : Nat} (bytes : List UInt8)

/-- `f` encodes its argument so that the boundary of the code word is determined. -/
def IsPrefixCode (f : α → List A) : Prop :=
  ∀ a b r s, f a ++ r = f b ++ s → a = b ∧ r = s

theorem IsPrefixCode.injective {f : α → List A} (h : IsPrefixCode f) : Function.Injective f := by
  intro a b hab
  exact (h a b [] [] (by rw [hab])).1

/-- A word preceded by its length. -/
theorem IsPrefixCode.length_prefixed {len : Nat → List A} (h : IsPrefixCode len) :
    IsPrefixCode fun w : List A => len w.length ++ w := by
  intro a b r s hab
  simp only [append_assoc] at hab
  obtain ⟨hl, hrest⟩ := h _ _ _ _ hab
  exact append_inj hrest hl

/-! ### LEB128 -/

/-- LEB128 with a bound on the number of bytes. -/
def leb128Aux : Nat → Nat → List UInt8
  | 0, n => [UInt8.ofNat n]
  | fuel + 1, n =>
    if n < 128 then [UInt8.ofNat n] else UInt8.ofNat (n % 128 + 128) :: leb128Aux fuel (n / 128)

/-- LEB128: a number has fewer 7-bit groups than its value. -/
def leb128 (n : Nat) : List UInt8 := leb128Aux n n

theorem toNat_ofNat_of_lt (h : n < 256) : (UInt8.ofNat n).toNat = n := by
  simpa using h

theorem leb128Aux_append_inj : ∀ (f g m n : Nat) (r s : List UInt8), m ≤ f → n ≤ g →
    leb128Aux f m ++ r = leb128Aux g n ++ s → m = n ∧ r = s := by
  -- the first byte says whether the number goes on, and holds its low seven bits
  have hlast : ∀ (f m : Nat), m ≤ f → m < 128 → leb128Aux f m = [UInt8.ofNat m] := by
    intro f m hf hm
    cases f with
    | zero => rfl
    | succ f => simp [leb128Aux, hm]
  have hmore : ∀ (f m : Nat), m ≤ f → ¬ m < 128 → ∃ f', m / 128 ≤ f' ∧ f' < f ∧
      leb128Aux f m = UInt8.ofNat (m % 128 + 128) :: leb128Aux f' (m / 128) := by
    intro f m hf hm
    cases f with
    | zero => omega
    | succ f => exact ⟨f, by omega, by omega, by simp [leb128Aux, hm]⟩
  have hbyte : ∀ a b : Nat, a < 256 → b < 256 → UInt8.ofNat a = UInt8.ofNat b → a = b := by
    intro a b ha hb h
    rw [← toNat_ofNat_of_lt ha, ← toNat_ofNat_of_lt hb, h]
  intro f
  induction f using Nat.strongRecOn with
  | ind f ih =>
    intro g m n r s hm hn h
    by_cases hm' : m < 128
    · by_cases hn' : n < 128
      · rw [hlast f m hm hm', hlast g n hn hn'] at h
        obtain ⟨h1, h2⟩ := cons.inj h
        exact ⟨hbyte m n (by omega) (by omega) h1, h2⟩
      · obtain ⟨g', -, -, hg⟩ := hmore g n hn hn'
        rw [hlast f m hm hm', hg] at h
        have := hbyte _ _ (by omega) (by omega) (cons.inj h).1
        omega
    · obtain ⟨f', hf', hlt, hf⟩ := hmore f m hm hm'
      by_cases hn' : n < 128
      · rw [hf, hlast g n hn hn'] at h
        have := hbyte _ _ (by omega) (by omega) (cons.inj h).1
        omega
      · obtain ⟨g', hg', -, hg⟩ := hmore g n hn hn'
        rw [hf, hg] at h
        obtain ⟨h1, h2⟩ := cons.inj h
        have hlow := hbyte _ _ (by omega) (by omega) h1
        obtain ⟨hhigh, hrs⟩ := ih f' hlt g' (m / 128) (n / 128) r s hf' hg' h2
        exact ⟨by omega, hrs⟩

theorem leb128_prefixCode : IsPrefixCode leb128 := fun m n r s h =>
  leb128Aux_append_inj m n m n r s (Nat.le_refl _) (Nat.le_refl _) h

/-! ### Fixed-width big-endian numbers -/

/-- The low `width` bytes of a number, most significant first. -/
def bigEndian : Nat → Nat → List UInt8
  | 0, _ => []
  | width + 1, n => UInt8.ofNat (n / 256 ^ width) :: bigEndian width n

@[simp] theorem bigEndian_length (width n : Nat) : (bigEndian width n).length = width := by
  induction width with
  | zero => rfl
  | succ width ih => simp [bigEndian, ih]

theorem bigEndian_inj {width m : Nat} (hm : m < 256 ^ width) (hn : n < 256 ^ width)
    (h : bigEndian width m = bigEndian width n) : m = n := by
  have hmod : ∀ w, bigEndian w m = bigEndian w n → m % 256 ^ w = n % 256 ^ w := by
    intro w
    induction w with
    | zero => intro _; simp [Nat.mod_one]
    | succ w ih =>
      intro h
      obtain ⟨h1, h2⟩ := cons.inj h
      have hd : m / 256 ^ w % 256 = n / 256 ^ w % 256 := by
        have := congrArg UInt8.toNat h1
        simpa using this
      rw [Nat.pow_succ, Nat.mod_mul, Nat.mod_mul, ih h2, hd]
  have := hmod width h
  rwa [Nat.mod_eq_of_lt hm, Nat.mod_eq_of_lt hn] at this

/-- The number whose big-endian bytes are given. -/
def ofBigEndian (bytes : List UInt8) : Nat := bytes.foldl (fun n b => 256 * n + b.toNat) 0

theorem foldl_bigEndian (width n m : Nat) :
    (bigEndian width n).foldl (fun n b => 256 * n + b.toNat) m
      = 256 ^ width * m + n % 256 ^ width := by
  induction width generalizing m with
  | zero => simp [bigEndian, Nat.mod_one]
  | succ width ih =>
    have hbyte : (UInt8.ofNat (n / 256 ^ width)).toNat = n / 256 ^ width % 256 := by simp
    rw [bigEndian, foldl_cons, ih, hbyte, Nat.pow_succ, Nat.mod_mul]
    ring

theorem ofBigEndian_bigEndian {width : Nat} (h : n < 256 ^ width) :
    ofBigEndian (bigEndian width n) = n := by
  rw [ofBigEndian, foldl_bigEndian, Nat.mod_eq_of_lt h, Nat.mul_zero, Nat.zero_add]

theorem foldl_ofBigEndian (m : Nat) :
    bytes.foldl (fun n b => 256 * n + b.toNat) m = 256 ^ bytes.length * m + ofBigEndian bytes := by
  induction bytes generalizing m with
  | nil => simp [ofBigEndian]
  | cons b bytes ih =>
    have hcons : ofBigEndian (b :: bytes) = 256 ^ bytes.length * b.toNat + ofBigEndian bytes := by
      rw [← ih b.toNat]
      simp [ofBigEndian]
    rw [foldl_cons, ih, hcons, length_cons, Nat.pow_succ]
    ring

theorem ofBigEndian_cons (b : UInt8) (bytes : List UInt8) :
    ofBigEndian (b :: bytes) = 256 ^ bytes.length * b.toNat + ofBigEndian bytes := by
  rw [ofBigEndian, foldl_cons, foldl_ofBigEndian, Nat.mul_zero, Nat.zero_add]

theorem ofBigEndian_lt : ofBigEndian bytes < 256 ^ bytes.length := by
  induction bytes with
  | nil => simp [ofBigEndian]
  | cons b bytes ih =>
    rw [ofBigEndian_cons, length_cons, Nat.pow_succ]
    have hb : b.toNat + 1 ≤ 256 := b.toNat_lt
    have := Nat.mul_le_mul_left (256 ^ bytes.length) hb
    rw [Nat.mul_add] at this
    omega

theorem bigEndian_add_mul (width n m : Nat) :
    bigEndian width (256 ^ width * m + n) = bigEndian width n := by
  suffices ∀ w ≤ width, bigEndian w (256 ^ width * m + n) = bigEndian w n from this width le_rfl
  intro w hw
  induction w with
  | zero => rfl
  | succ w ih =>
    obtain ⟨d, rfl⟩ := Nat.exists_eq_add_of_le hw
    have hpos : 0 < 256 ^ w := by positivity
    have hsplit : 256 ^ (w + 1 + d) * m + n = 256 ^ w * (256 * (256 ^ d * m)) + n := by ring
    have hdiv : (256 ^ (w + 1 + d) * m + n) / 256 ^ w = 256 * (256 ^ d * m) + n / 256 ^ w := by
      rw [hsplit, Nat.mul_add_div hpos]
    rw [bigEndian, bigEndian, ih (by omega), hdiv]
    congr 1
    apply UInt8.toNat_inj.mp
    simp

/-- Reading and writing a number of fixed width are inverse to each other. -/
theorem bigEndian_ofBigEndian : bigEndian bytes.length (ofBigEndian bytes) = bytes := by
  induction bytes with
  | nil => rfl
  | cons b bytes ih =>
    have hpos : 0 < 256 ^ bytes.length := by positivity
    rw [ofBigEndian_cons, length_cons, bigEndian, bigEndian_add_mul, ih,
      Nat.mul_add_div hpos, Nat.div_eq_of_lt (ofBigEndian_lt bytes), Nat.add_zero]
    simp

/-- The number that the first bytes spell. -/
theorem ofBigEndian_take {width : Nat} (h : width ≤ bytes.length) :
    ofBigEndian (bytes.take width) < 256 ^ width ∧
      bigEndian width (ofBigEndian (bytes.take width)) = bytes.take width := by
  have hlt := ofBigEndian_lt (bytes.take width)
  have hback := bigEndian_ofBigEndian (bytes.take width)
  rw [length_take_of_le h] at hlt hback
  exact ⟨hlt, hback⟩

end PrefixCode

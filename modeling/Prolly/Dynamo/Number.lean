import Mathlib.Algebra.Order.Field.Power
import Mathlib.Data.String.Basic
import Prolly.Basic
import Prolly.Lib.Digits
import Prolly.Lib.OrderCode
import Prolly.Lib.PrefixCode

/-!
# Prolly.Dynamo.Number

The decimal numbers of the DynamoDB extension (`model/attribute.rs`). A number is kept as
its canonical text, which only `parse` makes, and is written into a key as `orderedBytes`:
a sign, the biased exponent of the first digit and the digits, complemented where the number
is negative. The texts are ASCII and are modelled as their bytes.

The order of these byte strings is the order of the numbers (`orderedBytes_lt_iff`).
-/

namespace Prolly.Dynamo

open List Bool

/-- The bytes of a `String`. -/
def utf8 (text : String) : Bytes := text.toByteArray.data.toList

theorem utf8_injective : Function.Injective utf8 := by
  intro a b h
  apply String.toByteArray_inj.mp
  apply ByteArray.ext
  exact Array.toList_inj.mp h

/-! ### Parsing -/

/-- The texts of `Error::Validation` for numbers. -/
inductive NumberError where
  /-- "number must not be empty" -/
  | empty
  /-- "invalid number {input:?}" -/
  | invalid (input : String)
  /-- "invalid exponent in {input:?}" -/
  | invalidExponent (input : String)
  /-- "number exponent overflow" -/
  | exponentOverflow
  /-- "number exceeds 38 significant digits" -/
  | tooManyDigits
  /-- "number adjusted exponent {adjusted} is outside -130..=125" -/
  | outOfRange (adjusted : Int)
  deriving DecidableEq

/-- `char::is_whitespace`. -/
def isWhitespace (c : Char) : Bool :=
  let n := c.toNat
  (9 ≤ n && n ≤ 13) || n = 0x20 || n = 0x85 || n = 0xa0 || n = 0x1680 ||
    (0x2000 ≤ n && n ≤ 0x200a) || n = 0x2028 || n = 0x2029 || n = 0x202f || n = 0x205f ||
    n = 0x3000

/-- `str::trim`. -/
def trim (text : String) : String :=
  String.ofList (((text.toList.dropWhile isWhitespace).reverse.dropWhile isWhitespace).reverse)

/-- `b'0'..=b'9'`. -/
def isDigit (byte : UInt8) : Bool := 48 ≤ byte && byte ≤ 57

def digitValue (byte : UInt8) : ℕ := byte.toNat - 48

def decimal (digits : Bytes) : ℕ := Digits.number digitValue 10 digits

/-- A sum in `i32`. -/
def checkedI32 (n : Int) : Except NumberError Int :=
  if -2 ^ 31 ≤ n ∧ n < 2 ^ 31 then .ok n else .error .exponentOverflow

/-- A sign in front of a number. -/
def splitSign : Bytes → Bool × Bytes
  | 45 :: rest => (true, rest)
  | 43 :: rest => (false, rest)
  | text => (false, text)

/-- `str::parse::<i32>`. -/
def parseI32 (text : Bytes) : Option Int :=
  let (negative, digits) := splitSign text
  let n : Int := if negative then -decimal digits else decimal digits
  if digits ≠ [] ∧ digits.all isDigit ∧ -2 ^ 31 ≤ n ∧ n < 2 ^ 31 then some n else none

/-- `b'e'` or `b'E'`. -/
def isExponentMark (byte : UInt8) : Bool := byte = 101 || byte = 69

/-- The mantissa and the exponent of an unsigned number. -/
def splitExponent (input : String) (text : Bytes) : Except NumberError (Bytes × Int) :=
  match text.dropWhile (!isExponentMark ·) with
  | [] => .ok (text, 0)
  | _ :: rest =>
    if rest.any isExponentMark then .error (.invalid input)
    else
      match parseI32 rest with
      | none => .error (.invalidExponent input)
      | some exponent => .ok (text.takeWhile (!isExponentMark ·), exponent)

/-- The loop over the mantissa: the digits, and how many of them stand behind the point. -/
def scanMantissa (input : String) : Bytes → Bool → Int → Bytes →
    Except NumberError (Int × Bytes)
  | [], _, fractionalDigits, digits => .ok (fractionalDigits, digits)
  | byte :: rest, seenDot, fractionalDigits, digits =>
    if isDigit byte then
      if seenDot then do
        scanMantissa input rest seenDot (← checkedI32 (fractionalDigits + 1)) (digits ++ [byte])
      else scanMantissa input rest seenDot fractionalDigits (digits ++ [byte])
    else if byte = 46 ∧ !seenDot then
      scanMantissa input rest true fractionalDigits digits
    else .error (.invalid input)

/-- The loop that drops zeros at the end, over the digits from the last one on. -/
def dropTrailingZeros : Bytes → Int → Except NumberError (Bytes × Int)
  | 48 :: digits, scale => do dropTrailingZeros digits (← checkedI32 (scale - 1))
  | digits, scale => .ok (digits.reverse, scale)

/-- The text of a number by its digits and the power of ten they are divided by. -/
def canonicalText (negative : Bool) (digits : Bytes) (scale : Int) : Bytes :=
  (if negative then [45] else []) ++
    if scale ≤ 0 then digits ++ replicate (-scale).toNat 48
    else if scale < digits.length then
      let split := digits.length - scale.toNat
      digits.take split ++ 46 :: digits.drop split
    else [48, 46] ++ replicate (scale.toNat - digits.length) 48 ++ digits

/-- What `parse` does with the digits of a number other than zero. -/
def normalize (negative : Bool) (digits : Bytes) (scale : Int) : Except NumberError Bytes := do
  let (digits, scale) ← dropTrailingZeros digits.reverse scale
  if 38 < digits.length then .error .tooManyDigits
  else
    let adjusted ← checkedI32 ((← checkedI32 (digits.length - scale)) - 1)
    if -130 ≤ adjusted ∧ adjusted ≤ 125 then .ok (canonicalText negative digits scale)
    else .error (.outOfRange adjusted)

/-- `DynamoNumber::parse`: the canonical text. -/
def parseText (input : String) : Except NumberError Bytes := do
  let input := trim input
  if input = "" then .error .empty
  else
    let (negative, unsigned) := splitSign (utf8 input)
    if unsigned = [] then .error (.invalid input)
    else
      let (mantissa, exponent) ← splitExponent input unsigned
      let (fractionalDigits, digits) ← scanMantissa input mantissa false 0 []
      if digits = [] then .error (.invalid input)
      else
        match digits.dropWhile (· = 48) with
        | [] => .ok [48]
        | digits => do normalize negative digits (← checkedI32 (fractionalDigits - exponent))

/-- `DynamoNumber`: a text that `parse` made. -/
structure DynamoNumber where
  text : Bytes
  parsed : ∃ input, parseText input = .ok text

instance : DecidableEq DynamoNumber := fun a b =>
  decidable_of_iff (a.text = b.text)
    ⟨fun h => by cases a; cases b; cases h; rfl, fun h => by rw [h]⟩

namespace DynamoNumber

/-! ### The number and its bytes -/

/-- The sign and the rest of a canonical text. -/
def magnitude (number : DynamoNumber) : Bool × Bytes :=
  match number.text with
  | 45 :: rest => (true, rest)
  | text => (false, text)

/-- `coefficient_and_scale`. -/
def coefficientAndScale (number : DynamoNumber) : Int × ℕ :=
  let (negative, magnitude) := number.magnitude
  let scale := magnitude.length - (magnitude.takeWhile (· ≠ 46)).length - 1
  let coefficient : Int := decimal (magnitude.filter (· ≠ 46))
  (if negative then -coefficient else coefficient, scale)

/-- The number that the text denotes. -/
def value (number : DynamoNumber) : ℚ :=
  let (coefficient, scale) := number.coefficientAndScale
  coefficient / 10 ^ scale

/-- `ordered_bytes`. -/
def orderedBytes (number : DynamoNumber) : Bytes :=
  if number.text = [48] then [1]
  else
    let (negative, magnitude) := number.magnitude
    let integerDigits := (magnitude.takeWhile (· ≠ 46)).length
    let digits := magnitude.filter (· ≠ 46)
    let leadingZeros := (digits.takeWhile (· = 48)).length
    let adjusted : Int := integerDigits - leadingZeros - 1
    let payload := PrefixCode.bigEndian 2 (adjusted + 130).toNat ++ digits.drop leadingZeros ++ [0]
    if negative then 0 :: payload.map (~~~ ·) else 2 :: payload

end DynamoNumber

/-! ### Canonical texts -/

theorem checkedI32_ok {n m : Int} (h : checkedI32 n = .ok m) : m = n := by
  unfold checkedI32 at h
  split at h
  · cases h; rfl
  · cases h

theorem digitValue_zero : digitValue 48 = 0 := rfl

variable {byte : UInt8} {input : String} {text digits digits' : Bytes} {scale : Int}

theorem digitValue_lt (h : isDigit byte) : digitValue byte < 10 := by
  simp only [isDigit, and_eq_true, decide_eq_true_eq, UInt8.le_iff_toNat_le] at h
  have : byte.toNat ≤ 57 := h.2
  unfold digitValue
  omega

theorem digitValue_lt_digitValue {a b : UInt8} (ha : isDigit a) (h : a < b) :
    digitValue a < digitValue b := by
  simp only [isDigit, and_eq_true, decide_eq_true_eq, UInt8.le_iff_toNat_le] at ha
  have hlow : 48 ≤ a.toNat := ha.1
  have hlt := UInt8.lt_iff_toNat_lt.mp h
  unfold digitValue
  omega

theorem digitValue_pos (h : isDigit byte) (hne : byte ≠ 48) : 0 < digitValue byte := by
  simp only [isDigit, and_eq_true, decide_eq_true_eq, UInt8.le_iff_toNat_le] at h
  have hlow : 48 ≤ byte.toNat := h.1
  have hne' : byte.toNat ≠ 48 := fun heq => hne (UInt8.toNat_inj.mp heq)
  unfold digitValue
  omega

theorem ne_point_of_isDigit (h : isDigit byte) : byte ≠ 46 := by
  rintro rfl
  exact absurd h (by decide)

/-- How many bytes stand behind the point. -/
def fractionLength (text : Bytes) : ℕ := text.length - (text.takeWhile (· ≠ 46)).length - 1

theorem scanMantissa_spec {seenDot : Bool} {fractionalDigits fractionalDigits' : Int}
    (h : scanMantissa input text seenDot fractionalDigits digits = .ok (fractionalDigits', digits'))
    :
    digits' = digits ++ text.filter (· ≠ 46) ∧ ∀ b ∈ text.filter (· ≠ 46), isDigit b := by
  induction text generalizing seenDot fractionalDigits digits with
  | nil =>
    cases h
    simp
  | cons byte rest ih =>
    rw [scanMantissa] at h
    split at h
    · rename_i hdigit
      have hne := ne_point_of_isDigit hdigit
      split at h
      · obtain ⟨next, -, h⟩ := of_bind h
        obtain ⟨rfl, hall⟩ := ih h
        exact ⟨by simp [hne], by simpa [hne, hdigit] using hall⟩
      · obtain ⟨rfl, hall⟩ := ih h
        exact ⟨by simp [hne], by simpa [hne, hdigit] using hall⟩
    · split at h
      · rename_i hdot
        obtain ⟨rfl, -⟩ := hdot
        obtain ⟨rfl, hall⟩ := ih h
        exact ⟨by simp, by simpa using hall⟩
      · cases h

theorem dropTrailingZeros_spec {scale' : Int}
    (h : dropTrailingZeros digits scale = .ok (digits', scale')) :
    (∃ n : ℕ, digits.reverse = digits' ++ replicate n 48) ∧
      ∀ b ∈ digits'.getLast?, b ≠ 48 := by
  induction digits generalizing scale with
  | nil =>
    cases h
    exact ⟨⟨0, by simp⟩, by simp⟩
  | cons byte digits ih =>
    by_cases hzero : byte = 48
    · subst hzero
      rw [dropTrailingZeros] at h
      obtain ⟨next, -, h⟩ := of_bind h
      obtain ⟨⟨n, hdigits⟩, hlast⟩ := ih h
      refine ⟨⟨n + 1, ?_⟩, hlast⟩
      rw [reverse_cons, hdigits, append_assoc, replicate_succ']
    · have hstop : dropTrailingZeros (byte :: digits) scale
          = .ok ((byte :: digits).reverse, scale) := by
        rw [dropTrailingZeros]
        intro digits' heq
        exact hzero (cons.inj heq).1
      cases hstop.symm.trans h
      exact ⟨⟨0, by simp⟩, by simpa using hzero⟩

/-- The digits of a canonical text of a number other than zero, and the power of ten they are
divided by. -/
structure Significand (digits : Bytes) (scale : Int) : Prop where
  digit : ∀ b ∈ digits, isDigit b
  ne_nil : digits ≠ []
  head_ne : ∀ b ∈ digits.head?, b ≠ 48
  last_ne : ∀ b ∈ digits.getLast?, b ≠ 48
  length_le : digits.length ≤ 38
  low : -130 ≤ (digits.length : Int) - scale - 1
  high : (digits.length : Int) - scale - 1 ≤ 125

theorem normalize_spec {negative : Bool} (hdigits : ∀ b ∈ digits, isDigit b) (hne : digits ≠ [])
    (hhead : ∀ b ∈ digits.head?, b ≠ 48) (h : normalize negative digits scale = .ok text) :
    ∃ digits' scale', Significand digits' scale' ∧
        text = canonicalText negative digits' scale' := by
  obtain ⟨⟨digits', scale'⟩, hdrop, h⟩ := of_bind h
  obtain ⟨⟨n, heq⟩, hlast⟩ := dropTrailingZeros_spec hdrop
  rw [reverse_reverse] at heq
  dsimp only at h
  split at h
  · cases h
  · rename_i hshort
    obtain ⟨first, hfirst, h⟩ := of_bind h
    obtain ⟨adjusted, hadjusted, h⟩ := of_bind h
    cases checkedI32_ok hfirst
    cases checkedI32_ok hadjusted
    split at h
    · rename_i hrange
      cases h
      subst heq
      -- the first digit is not a zero, so that some digit is left
      have hne' : digits' ≠ [] := by
        rintro rfl
        cases n with
        | zero => exact hne rfl
        | succ n => exact hhead 48 (by simp [replicate_succ]) rfl
      refine ⟨digits', scale', ⟨?_, hne', ?_, hlast, by omega, hrange.1, hrange.2⟩, rfl⟩
      · exact fun b hb => hdigits b (mem_append_left _ hb)
      · intro b hb
        apply hhead b
        rw [head?_append_of_ne_nil _ hne']
        exact hb
    · cases h

/-- What a canonical text is. -/
theorem parseText_spec (h : parseText input = .ok text) :
    text = [48] ∨ ∃ negative digits scale, Significand digits scale ∧
      text = canonicalText negative digits scale := by
  unfold parseText at h
  dsimp only at h
  split at h
  · cases h
  split at h
  · cases h
  obtain ⟨⟨mantissa, exponent⟩, -, h⟩ := of_bind h
  obtain ⟨⟨fractionalDigits, digits⟩, hscan, h⟩ := of_bind h
  dsimp only at h
  split at h
  · cases h
  obtain ⟨hdigits, hall⟩ := scanMantissa_spec hscan
  rw [nil_append] at hdigits
  split at h
  · cases h
    exact .inl rfl
  · rename_i hne
    obtain ⟨scale, -, h⟩ := of_bind h
    obtain ⟨digits', scale', hsig, rfl⟩ := normalize_spec
      (fun b hb => hall b (hdigits ▸ (dropWhile_sublist _).subset hb)) hne
      (fun b hb => by
        have := head?_dropWhile_not (fun b : UInt8 => decide (b = 48)) digits
        rw [hb] at this
        simpa using this) h
    exact .inr ⟨_, _, _, hsig, rfl⟩

/-! ### The digits of a canonical text -/

namespace Significand

variable {digits : Bytes} {scale : Int} (h : Significand digits scale)
include h

theorem filter_point : digits.filter (· ≠ 46) = digits :=
  filter_eq_self.mpr fun b hb => decide_eq_true (ne_point_of_isDigit (h.digit b hb))

theorem head_spec : ∃ b rest, digits = b :: rest ∧ isDigit b ∧ b ≠ 48 := by
  obtain ⟨b, rest, heq⟩ := exists_cons_of_ne_nil h.ne_nil
  exact ⟨b, rest, heq, h.digit b (by simp [heq]), h.head_ne b (by simp [heq])⟩

/-- The digits of the text: zeros in front that do not count, the digits, and the zeros up to the
point. How many stand in front of the point tells the exponent of the first that counts. -/
theorem text_spec :
    ∃ n : ℕ, (canonicalText false digits scale).filter (· ≠ 46)
        = replicate n 48 ++ (digits ++ replicate (-scale).toNat 48) ∧
      (((canonicalText false digits scale).takeWhile (· ≠ 46)).length : Int) - n
        = digits.length - scale ∧
      fractionLength (canonicalText false digits scale) = scale.toNat := by
  have hne : ∀ b ∈ digits, decide (b ≠ 46) = true := fun b hb =>
    decide_eq_true (ne_point_of_isDigit (h.digit b hb))
  have hzeros : ∀ n, ∀ b ∈ replicate n (48 : UInt8), decide (b ≠ 46) = true := by
    intro n b hb
    rw [eq_of_mem_replicate hb]
    decide
  unfold canonicalText
  simp only [false_eq_true, if_false, nil_append]
  split
  · -- the digits and the zeros up to the point are the whole text
    rename_i hscale
    have hall : ∀ b ∈ digits ++ replicate (-scale).toNat 48, decide (b ≠ 46) = true :=
      forall_mem_append.mpr ⟨hne, hzeros _⟩
    refine ⟨0, ?_, ?_, ?_⟩
    · rw [filter_eq_self.mpr hall]
      rfl
    · rw [takeWhile_eq_self_iff.mpr hall, length_append, length_replicate]
      push_cast
      omega
    · rw [fractionLength, takeWhile_eq_self_iff.mpr hall]
      omega
  · rename_i hscale
    have hzero : (-scale).toNat = 0 := by omega
    have hpoint : ∀ back : Bytes, (46 :: back).filter (· ≠ 46) = back.filter (· ≠ 46) :=
      fun back => filter_cons_of_neg (by decide)
    have hstop : ∀ front back : Bytes, (∀ b ∈ front, decide (b ≠ 46) = true) →
        (front ++ 46 :: back).takeWhile (· ≠ 46) = front := by
      intro front back hfront
      rw [takeWhile_append_of_pos hfront]
      simp
    split
    · -- the point is between two digits
      rename_i hmiddle
      have htake : ∀ b ∈ digits.take (digits.length - scale.toNat), decide (b ≠ 46) = true :=
        fun b hb => hne b (mem_of_mem_take hb)
      refine ⟨0, ?_, ?_, ?_⟩
      · rw [filter_append, hpoint, ← filter_append, take_append_drop, h.filter_point, hzero]
        simp
      · rw [hstop _ _ htake, length_take]
        omega
      · rw [fractionLength, hstop _ _ htake]
        simp only [length_append, length_cons, length_take, length_drop]
        omega
    · -- the point is in front of the digits
      rename_i hbelow
      have hfront : [48, 46] ++ replicate (scale.toNat - digits.length) 48 ++ digits
          = [48] ++ 46 :: (replicate (scale.toNat - digits.length) 48 ++ digits) := by
        simp
      have hone : ∀ b ∈ [(48 : UInt8)], decide (b ≠ 46) = true := forall_mem_singleton.mpr rfl
      refine ⟨scale.toNat - digits.length + 1, ?_, ?_, ?_⟩
      · rw [hfront, filter_append, hpoint, filter_append, h.filter_point,
          filter_eq_self.mpr (hzeros _), filter_eq_self.mpr hone, hzero, replicate_succ]
        simp
      · rw [hfront, hstop _ _ hone]
        simp only [length_singleton]
        omega
      · rw [hfront, fractionLength, hstop _ _ hone]
        simp only [length_append, length_cons, length_nil, length_replicate]
        omega

/-- The text of a positive number starts with a digit. -/
theorem text_head : ∃ b rest, canonicalText false digits scale = b :: rest ∧ b ≠ 45 := by
  obtain ⟨b, rest, rfl, hdigit, -⟩ := h.head_spec
  have hb : b ≠ 45 := by
    rintro rfl
    exact absurd hdigit (by decide)
  unfold canonicalText
  simp only [false_eq_true, if_false, nil_append]
  split
  · exact ⟨b, _, rfl, hb⟩
  · split
    · rename_i hscale hmiddle
      obtain ⟨n, hn⟩ : ∃ n, (b :: rest).length - scale.toNat = n + 1 :=
        ⟨(b :: rest).length - scale.toNat - 1, by omega⟩
      rw [hn]
      exact ⟨b, _, rfl, hb⟩
    · exact ⟨48, _, rfl, by decide⟩

/-- The text is not that of zero. -/
theorem text_ne_zero (negative : Bool) : canonicalText negative digits scale ≠ [48] := by
  intro heq
  cases negative with
  | true =>
    have : canonicalText true digits scale = 45 :: canonicalText false digits scale := rfl
    rw [this] at heq
    exact absurd (cons.inj heq).1 (by decide)
  | false =>
    obtain ⟨n, hfilter, -⟩ := h.text_spec
    obtain ⟨b, rest, rfl, -, hb⟩ := h.head_spec
    rw [heq] at hfilter
    have hmem : b ∈ [(48 : UInt8)].filter (· ≠ 46) := by
      rw [hfilter]
      simp
    exact hb (by simpa using (mem_filter.mp hmem).1)

end Significand

namespace DynamoNumber

variable {number : DynamoNumber} {negative : Bool} {digits : Bytes} {scale : Int}

theorem magnitude_eq (h : Significand digits scale)
    (htext : number.text = canonicalText negative digits scale) :
    number.magnitude = (negative, canonicalText false digits scale) := by
  unfold magnitude
  cases negative with
  | true =>
    have : canonicalText true digits scale = 45 :: canonicalText false digits scale := rfl
    rw [htext, this]
    rfl
  | false =>
    obtain ⟨b, rest, heq, hb⟩ := h.text_head
    rw [htext, heq]
    split
    · rename_i heq'
      exact absurd (cons.inj heq').1 hb
    · rfl

theorem value_eq (h : Significand digits scale)
    (htext : number.text = canonicalText negative digits scale) :
    number.value = if negative then -(decimal digits * 10 ^ (-scale) : ℚ)
      else decimal digits * 10 ^ (-scale) := by
  obtain ⟨n, hfilter, -, hfraction⟩ := h.text_spec
  have hdigits : decimal (replicate n 48 ++ (digits ++ replicate (-scale).toNat 48))
      = decimal digits * 10 ^ (-scale).toNat := by
    unfold decimal
    rw [Digits.number_zeros_append _ _ digitValue_zero,
      Digits.number_append_zeros _ _ digitValue_zero]
  have hscale : (10 : ℚ) ^ (-scale).toNat / 10 ^ scale.toNat = 10 ^ (-scale) := by
    rw [← zpow_natCast, ← zpow_natCast, ← zpow_sub₀ (by norm_num)]
    congr 1
    omega
  unfold fractionLength at hfraction
  rw [value, coefficientAndScale, magnitude_eq h htext]
  dsimp only
  rw [hfraction, hfilter, hdigits, ← hscale]
  cases negative with
  | true => simp [mul_div_assoc, neg_div]
  | false => simp [mul_div_assoc]

theorem value_of_zero (htext : number.text = [48]) : number.value = 0 := by
  have hmagnitude : number.magnitude = (false, [48]) := by
    rw [magnitude, htext]
    rfl
  rw [value, coefficientAndScale, hmagnitude]
  simp [show decimal [48] = 0 from rfl]

end DynamoNumber

/-! ### The order of the bytes -/

/-- A positive number by the exponent of its first digit and its digits, with the zeros up to the
point among them. -/
structure Scientific (exponent : Int) (digits : Bytes) : Prop where
  digit : ∀ b ∈ digits, isDigit b
  head_spec : ∃ b rest, digits = b :: rest ∧ b ≠ 48
  /-- Zeros at the end are those in front of the point. -/
  last_spec : digits.getLast? = some 48 → (digits.length : Int) = exponent + 1
  whole : exponent + 1 ≤ digits.length
  length_le : digits.length ≤ 126
  low : -130 ≤ exponent
  high : exponent ≤ 125

/-- The number of these digits. -/
def scientificValue (exponent : Int) (digits : Bytes) : ℚ :=
  Digits.fraction digitValue 10 digits * 10 ^ (exponent + 1)

theorem scientificValue_eq (digits : Bytes) (scale : Int) :
    scientificValue (digits.length - scale - 1) (digits ++ replicate (-scale).toNat 48)
      = decimal digits * 10 ^ (-scale) := by
  have hnumber : Digits.number digitValue 10 (digits ++ replicate (-scale).toNat 48)
      = decimal digits * 10 ^ (-scale).toNat := Digits.number_append_zeros _ _ digitValue_zero _ _
  rw [scientificValue, Digits.fraction_eq _ (by decide), hnumber, length_append, length_replicate]
  push_cast
  rw [div_mul_eq_mul_div, div_eq_iff (by positivity), mul_assoc, mul_assoc]
  congr 1
  rw [← zpow_natCast, ← zpow_natCast, ← zpow_add₀ (by norm_num), ← zpow_add₀ (by norm_num)]
  congr 1
  push_cast
  omega

def payload (exponent : Int) (digits : Bytes) : Bytes :=
  PrefixCode.bigEndian 2 (exponent + 130).toNat ++ digits ++ [0]

/-- The order of exponents, and of the digits where these agree. -/
def Precedes (exponent : Int) (digits : Bytes) (exponent' : Int) (digits' : Bytes) : Prop :=
  exponent < exponent' ∨ exponent = exponent' ∧ digits < digits'

theorem precedes_trichotomy (e : Int) (ds : Bytes) (e' : Int) (ds' : Bytes) :
    Precedes e ds e' ds' ∨ (e = e' ∧ ds = ds') ∨ Precedes e' ds' e ds := by
  unfold Precedes
  rcases lt_trichotomy e e' with h | rfl | h
  · exact .inl (.inl h)
  · rcases lt_trichotomy ds ds' with h | rfl | h
    · exact .inl (.inr ⟨rfl, h⟩)
    · exact .inr (.inl ⟨rfl, rfl⟩)
    · exact .inr (.inr (.inr ⟨rfl, h⟩))
  · exact .inr (.inr (.inl h))

namespace Scientific

variable {e e' : Int} {ds ds' : Bytes} (h : Scientific e ds) (h' : Scientific e' ds')

section
include h

theorem value_lt : scientificValue e ds < 10 ^ (e + 1) := by
  have hlt := Digits.fraction_lt_one (b := 10) fun d hd => digitValue_lt (h.digit d hd)
  exact mul_lt_of_lt_one_left (by positivity) hlt

theorem le_value : (10 : ℚ) ^ e ≤ scientificValue e ds := by
  obtain ⟨b, rest, rfl, hne⟩ := h.head_spec
  have hle := Digits.inv_le_fraction (b := 10) (by decide)
    (digitValue_pos (h.digit b mem_cons_self) hne) rest
  calc (10 : ℚ) ^ e = ((10 : ℕ) : ℚ)⁻¹ * 10 ^ (e + 1) := by
        rw [zpow_add_one₀ (by norm_num)]
        norm_num
        ring
    _ ≤ scientificValue e (b :: rest) := by
        unfold scientificValue
        gcongr

theorem value_pos : 0 < scientificValue e ds := lt_of_lt_of_le (by positivity) h.le_value

end

include h h'

theorem value_lt_value (hlt : Precedes e ds e' ds') :
    scientificValue e ds < scientificValue e' ds' := by
  rcases hlt with hlt | ⟨rfl, hlt⟩
  · calc scientificValue e ds < 10 ^ (e + 1) := h.value_lt
      _ ≤ 10 ^ e' := zpow_le_zpow_right₀ (by norm_num) (by omega)
      _ ≤ scientificValue e' ds' := h'.le_value
  · refine mul_lt_mul_of_pos_right ?_ (by positivity)
    refine Digits.fraction_lt (fun d hd => digitValue_lt (h.digit d hd))
      (fun d hd => digitValue_lt (h'.digit d hd))
      (fun d hd _ _ hlt => digitValue_lt_digitValue (h.digit d hd) hlt) hlt ?_
    -- a longer string of digits goes beyond the point, where the last digit is not a zero
    rintro rest rfl
    have hne : rest ≠ [] := by
      rintro rfl
      rw [append_nil] at hlt
      exact lt_irrefl ds hlt
    have hlast : (ds ++ rest).getLast? = some (rest.getLast hne) := by
      rw [getLast?_append_of_ne_nil _ hne, getLast?_eq_getLast_of_ne_nil hne]
    refine ⟨rest.getLast hne, getLast_mem hne, digitValue_pos
      (h'.digit _ (mem_append_right _ (getLast_mem hne))) fun hzero => ?_⟩
    rw [hzero] at hlast
    have hwhole := h'.last_spec hlast
    have hlonger := h.whole
    have hpos := length_pos_iff.mpr hne
    rw [length_append] at hwhole
    push_cast at hwhole
    omega

theorem payload_diverges (hlt : Precedes e ds e' ds') :
    OrderCode.Diverges (payload e ds) (payload e' ds') := by
  unfold payload
  rcases hlt with hlt | ⟨rfl, hlt⟩
  · have hlow := h.low
    have hhigh := h'.high
    have hbytes : ∀ n, n < 256 → PrefixCode.bigEndian 2 n = [0, UInt8.ofNat n] := by
      intro n hn
      simp [PrefixCode.bigEndian, Nat.div_eq_of_lt hn]
    rw [hbytes _ (by omega), hbytes _ (by omega)]
    refine .cons 0 (.head ?_ _ _)
    rw [UInt8.lt_iff_toNat_lt, PrefixCode.toNat_ofNat_of_lt (by omega),
      PrefixCode.toNat_ofNat_of_lt (by omega)]
    omega
  · rw [append_assoc, append_assoc]
    refine .append_left _ (.of_lt_terminated (fun b hb => ?_) hlt)
    have hdigit := h'.digit b hb
    simp only [isDigit, and_eq_true, decide_eq_true_eq] at hdigit
    exact lt_of_lt_of_le (by decide) hdigit.1

end Scientific

theorem complement_strictAnti : StrictAnti fun b : UInt8 => ~~~b := by
  intro a b h
  rw [UInt8.lt_iff_toNat_lt] at h ⊢
  simp only [UInt8.toNat_not, UInt8.size]
  have := b.toNat_lt
  omega

namespace DynamoNumber

variable (number : DynamoNumber) {a b : DynamoNumber}

/-- A number is zero or has a sign and digits. -/
theorem scientific :
    (number.orderedBytes = [1] ∧ number.value = 0) ∨
    ∃ (negative : Bool) (e : Int) (ds : Bytes), Scientific e ds ∧
      number.orderedBytes = (if negative then 0 :: (payload e ds).map (~~~ ·)
        else 2 :: payload e ds) ∧
      number.value = if negative then -scientificValue e ds else scientificValue e ds := by
  obtain ⟨input, hparse⟩ := number.parsed
  rcases parseText_spec hparse with htext | ⟨negative, digits, scale, h, htext⟩
  · left
    exact ⟨by rw [orderedBytes, if_pos htext], value_of_zero htext⟩
  · right
    have hmagnitude := magnitude_eq h htext
    have hzero : number.text ≠ [48] := htext ▸ h.text_ne_zero negative
    obtain ⟨n, hfilter, hpoint, -⟩ := h.text_spec
    obtain ⟨b, rest, rfl, -, hb⟩ := h.head_spec
    have hlow := h.low
    have hhigh := h.high
    -- what the text has in front of the first digit that counts, and from there on
    have hleading :
      ((replicate n 48 ++ (b :: rest ++ replicate (-scale).toNat 48)).takeWhile
        fun x : UInt8 => decide (x = 48)) = replicate n 48 := by
      rw [takeWhile_append_of_pos fun x hx => by simp [eq_of_mem_replicate hx]]
      simp [hb]
    refine ⟨negative, (b :: rest).length - scale - 1,
      b :: rest ++ replicate (-scale).toNat 48, ?_, ?_, ?_⟩
    · refine ⟨?_, ⟨b, _, rfl, hb⟩, ?_, ?_, ?_, hlow, hhigh⟩
      · refine forall_mem_append.mpr ⟨h.digit, fun x hx => ?_⟩
        rw [eq_of_mem_replicate hx]
        decide
      · intro hlast
        rw [length_append, length_replicate]
        push_cast
        by_cases hscale : scale ≤ 0
        · omega
        · rw [show (-scale).toNat = 0 by omega, replicate_zero, append_nil] at hlast
          exact absurd rfl (h.last_ne 48 hlast)
      · rw [length_append, length_replicate]
        push_cast
        omega
      · have hshort := h.length_le
        rw [length_append, length_replicate]
        omega
    · rw [orderedBytes, if_neg hzero, hmagnitude]
      dsimp only
      rw [hfilter, hleading, length_replicate, hpoint,
        drop_append_of_le_length (by simp), drop_of_length_le (by simp), nil_append]
      rfl
    · rw [value_eq h htext, scientificValue_eq]

theorem orderedBytes_lt_of_value_lt (h : a.value < b.value) : a.orderedBytes < b.orderedBytes := by
  have hhead : ∀ {x y : UInt8}, x < y → ∀ u v : Bytes, x :: u < y :: v :=
    fun hlt u v => cons_lt_cons_iff.mpr (.inl hlt)
  rcases a.scientific with ⟨ha, hva⟩ | ⟨na, e, ds, hs, ha, hva⟩ <;>
    rcases b.scientific with ⟨hb, hvb⟩ | ⟨nb, e', ds', hs', hb, hvb⟩ <;>
    rw [hva, hvb] at h <;> rw [ha, hb]
  · exact absurd h (lt_irrefl _)
  · cases nb with
    | true => exact absurd h (by simpa using hs'.value_pos.le)
    | false => exact hhead (by decide) _ _
  · cases na with
    | true => exact hhead (by decide) _ _
    | false => exact absurd h (by simpa using hs.value_pos.le)
  · cases na <;> cases nb <;> simp only [if_true, false_eq_true, if_false] at h ⊢
    · -- both are positive
      rcases precedes_trichotomy e ds e' ds' with hlt | ⟨rfl, rfl⟩ | hlt
      · exact (OrderCode.Diverges.cons 2 (hs.payload_diverges hs' hlt)).lt
      · exact absurd h (lt_irrefl _)
      · exact absurd h (hs'.value_lt_value hs hlt).not_gt
    · linarith [hs.value_pos, hs'.value_pos]
    · exact hhead (by decide) _ _
    · -- both are negative, so that the order of the digits is turned around
      rcases precedes_trichotomy e ds e' ds' with hlt | ⟨rfl, rfl⟩ | hlt
      · linarith [hs.value_lt_value hs' hlt]
      · exact absurd h (lt_irrefl _)
      · exact (OrderCode.Diverges.cons 0
          ((hs'.payload_diverges hs hlt).map_anti complement_strictAnti)).lt

theorem orderedBytes_eq_of_value_eq (h : a.value = b.value) : a.orderedBytes = b.orderedBytes := by
  rcases a.scientific with ⟨ha, hva⟩ | ⟨na, e, ds, hs, ha, hva⟩ <;>
    rcases b.scientific with ⟨hb, hvb⟩ | ⟨nb, e', ds', hs', hb, hvb⟩ <;>
    rw [hva, hvb] at h <;> rw [ha, hb]
  · cases nb <;> simp only [if_true, false_eq_true, if_false] at h <;>
      linarith [hs'.value_pos]
  · cases na <;> simp only [if_true, false_eq_true, if_false] at h <;>
      linarith [hs.value_pos]
  · have hsame : scientificValue e ds = scientificValue e' ds' → e = e' ∧ ds = ds' := by
      intro heq
      rcases precedes_trichotomy e ds e' ds' with hlt | heq' | hlt
      · exact absurd heq (hs.value_lt_value hs' hlt).ne
      · exact heq'
      · exact absurd heq (hs'.value_lt_value hs hlt).ne'
    cases na <;> cases nb <;> simp only [if_true, false_eq_true, if_false] at h
    · obtain ⟨rfl, rfl⟩ := hsame h
      rfl
    · linarith [hs.value_pos, hs'.value_pos]
    · linarith [hs.value_pos, hs'.value_pos]
    · obtain ⟨rfl, rfl⟩ := hsame (neg_injective h)
      rfl

/-- The bytes of numbers are in the order of the numbers. -/
theorem orderedBytes_lt_iff : a.orderedBytes < b.orderedBytes ↔ a.value < b.value := by
  refine ⟨fun h => ?_, orderedBytes_lt_of_value_lt⟩
  rcases lt_trichotomy a.value b.value with hlt | heq | hlt
  · exact hlt
  · exact absurd (orderedBytes_eq_of_value_eq heq) h.ne
  · exact absurd h (orderedBytes_lt_of_value_lt hlt).not_gt

theorem orderedBytes_eq_iff : a.orderedBytes = b.orderedBytes ↔ a.value = b.value := by
  refine ⟨fun h => ?_, orderedBytes_eq_of_value_eq⟩
  rcases lt_trichotomy a.value b.value with hlt | heq | hlt
  · exact absurd h (orderedBytes_lt_of_value_lt hlt).ne
  · exact heq
  · exact absurd h (orderedBytes_lt_of_value_lt hlt).ne'

theorem orderedBytes_length_le : number.orderedBytes.length ≤ 130 := by
  rcases number.scientific with ⟨h, -⟩ | ⟨negative, e, ds, hs, h, -⟩
  · simp [h]
  · have hlength : (payload e ds).length ≤ 129 := by
      simp only [payload, length_append, PrefixCode.bigEndian_length, length_singleton]
      linarith [hs.length_le]
    rw [h]
    cases negative <;> simp only [if_true, false_eq_true, if_false, length_cons,
      length_map] <;> omega

end DynamoNumber

end Prolly.Dynamo

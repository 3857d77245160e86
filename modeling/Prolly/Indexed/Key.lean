import Prolly.Diff.Model
import Prolly.Indexed.Basic
import Prolly.Lib.OrderCode
import Prolly.NodeDecode

/-!
# Prolly.Indexed.Key

Keys of several segments (`key.rs`), and what index trees hold (`storage.rs`): physical index
keys and the values stored under them.

A segment is written with its zero bytes escaped (`00` as `00 FF`) and ends with `00 00`.
The encoding preserves the order whatever follows it (`encodeSegment_orderCode`), so a
physical key, a term's segment with a primary key's behind it, is ordered by term and then
by primary key. A byte interval that `prefix_end` closes holds exactly the extensions of
its start (`mem_prefixEnd`). With both, each kind of query is one interval of physical
keys (`physicalBounds_spec`). A stored value is read back (`IndexValue.fromBytes_toBytes`).

A decoder is described by the encodings it accepts (`decodeSegments_iff`,
`decodePhysicalIndexKeyRef_iff`, `IndexValueRef.decode_iff`), so that two decoders agree
when they accept the same ones (`borrowedDecoders_agree`).
-/

namespace Prolly

open List

/-! ### Segments -/

/-- How a byte of a segment is written. -/
def escapeByte (byte : UInt8) : Bytes := if byte = 0 then [0x00, 0xff] else [byte]

/-- `encode_segment_prefix`: a segment without its terminator. -/
def encodeSegmentPrefix (segment : Bytes) : Bytes := segment.flatMap escapeByte

/-- `encode_segment`. -/
def encodeSegment (segment : Bytes) : Bytes := segment.flatMap escapeByte ++ [0x00, 0x00]

/-- `KeyDecodeError`. -/
inductive KeyDecodeError where
  | unexpectedEnd (offset : Nat)
  | invalidEscape (offset : Nat) (marker : UInt8)
  deriving DecidableEq

/-- The two hexadecimal digits of a byte. -/
def hexByte (byte : UInt8) : String :=
  String.ofList [Nat.digitChar (byte.toNat / 16), Nat.digitChar (byte.toNat % 16)]

/-- `Display` of a decoding error. -/
def KeyDecodeError.display : KeyDecodeError → String
  | unexpectedEnd offset => "encoded key ended unexpectedly at byte offset " ++ toString offset
  | invalidEscape offset marker =>
    "invalid encoded key escape at byte offset " ++ toString offset ++ ": 0x" ++ hexByte marker

/-- The loop of `decode_segments`, over the part of the key from `offset` on. -/
def decodeSegmentsLoop : Bytes → Nat → Bytes → List Bytes → Except KeyDecodeError (List Bytes)
  | [], offset, current, segments =>
    if current.isEmpty then .ok segments else .error (.unexpectedEnd offset)
  | byte :: rest, offset, current, segments =>
    if byte ≠ 0 then decodeSegmentsLoop rest (offset + 1) (current ++ [byte]) segments
    else
      match rest with
      | [] => .error (.unexpectedEnd offset)
      | marker :: rest =>
        if marker = 0x00 then decodeSegmentsLoop rest (offset + 2) [] (segments ++ [current])
        else if marker = 0xff then
          decodeSegmentsLoop rest (offset + 2) (current ++ [0]) segments
        else .error (.invalidEscape offset marker)

/-- `decode_segments`. -/
def decodeSegments (key : Bytes) : Except KeyDecodeError (List Bytes) :=
  decodeSegmentsLoop key 0 [] []

/-- The loop of `prefix_end`, over the bytes of the prefix from its last one on. -/
def prefixEndLoop : Bytes → Option Bytes
  | [] => none
  | last :: rest => if last = 0xff then prefixEndLoop rest else some (rest.reverse ++ [last + 1])

/-- `prefix_end`. -/
def prefixEnd (bytes : Bytes) : Option Bytes := prefixEndLoop bytes.reverse

/-! ### The code of a segment -/

@[simp] theorem encodeSegmentPrefix_nil : encodeSegmentPrefix [] = [] := rfl

@[simp] theorem encodeSegmentPrefix_cons (byte : UInt8) (segment : Bytes) :
    encodeSegmentPrefix (byte :: segment) = escapeByte byte ++ encodeSegmentPrefix segment := rfl

variable (segment rest bytes : Bytes) {byte a : UInt8} (segments : List Bytes)
  {key term primaryKey : Bytes}

theorem encodeSegment_eq : encodeSegment segment = encodeSegmentPrefix segment ++ [0, 0] := rfl

theorem zero_lt_byte (h : byte ≠ 0) : 0 < byte := by
  rw [UInt8.lt_iff_toNat_lt]
  have hne : byte.toNat ≠ (0 : UInt8).toNat := fun heq => h (UInt8.toNat_inj.mp heq)
  simpa using Nat.pos_of_ne_zero hne

/-- The first byte at which two escaped segments differ is escaped to a lower one in the
smaller segment, and the terminator is lower than every escaped byte. -/
theorem encodeSegment_orderCode : OrderCode.IsOrderCode encodeSegment := by
  intro a
  induction a with
  | nil =>
    intro b r s hab
    cases b with
    | nil => exact absurd hab (lt_irrefl _)
    | cons y b =>
      by_cases hy : y = 0
      · simp [encodeSegment, escapeByte, hy, cons_lt_cons_iff]
      · simp [encodeSegment, escapeByte, hy, cons_lt_cons_iff, zero_lt_byte hy]
  | cons x a ih =>
    intro b r s hab
    cases b with
    | nil => exact absurd hab (by simp)
    | cons y b =>
      simp only [encodeSegment, flatMap_cons, append_assoc]
      rcases cons_lt_cons_iff.mp hab with hlt | ⟨rfl, hlt⟩
      · have hy : y ≠ 0 := fun hy => by
          rw [hy, UInt8.lt_iff_toNat_lt] at hlt
          simp at hlt
        by_cases hx : x = 0
        · simp [escapeByte, hx, hy, cons_lt_cons_iff, zero_lt_byte hy]
        · simp [escapeByte, hx, hy, cons_lt_cons_iff, hlt]
      · rw [OrderCode.append_lt_append_iff]
        simpa [encodeSegment] using ih b r s hlt

/-- A beginning of a segment is a beginning of its code. -/
theorem encodeSegmentPrefix_iff (start term rest : Bytes) :
    encodeSegmentPrefix start <+: encodeSegment term ++ rest ↔ start <+: term := by
  induction start generalizing term with
  | nil => simp
  | cons x start ih =>
    cases term with
    | nil =>
      by_cases hx : x = 0
      · simp [encodeSegment, escapeByte, hx, cons_prefix_cons]
      · simp [encodeSegment, escapeByte, hx, cons_prefix_cons]
    | cons y term =>
      have hih : encodeSegmentPrefix start <+: encodeSegment term ++ rest ↔ start <+: term :=
        ih term
      have hsplit : encodeSegment (y :: term) ++ rest =
          escapeByte y ++ (encodeSegment term ++ rest) := by
        simp [encodeSegment]
      rw [hsplit, cons_prefix_cons, encodeSegmentPrefix_cons, ← hih]
      by_cases hx : x = 0 <;> by_cases hy : y = 0
      · simp [escapeByte, hx, hy, cons_prefix_cons]
      · simp [escapeByte, hx, hy, cons_prefix_cons, Ne.symm hy]
      · simp [escapeByte, hx, hy, cons_prefix_cons]
      · simp [escapeByte, hx, hy, cons_prefix_cons]

theorem decodeSegmentsLoop_cons (h : byte ≠ 0) (rest : Bytes) (offset : Nat) (current : Bytes)
    (segments : List Bytes) :
    decodeSegmentsLoop (byte :: rest) offset current segments =
      decodeSegmentsLoop rest (offset + 1) (current ++ [byte]) segments := by
  cases rest <;> simp [decodeSegmentsLoop, h]

/-- The decoding loop reads an escaped segment into `current`. -/
theorem decodeSegmentsLoop_escaped (offset : Nat) (current : Bytes) (segments : List Bytes) :
    decodeSegmentsLoop (encodeSegmentPrefix segment ++ rest) offset current segments =
      decodeSegmentsLoop rest (offset + (encodeSegmentPrefix segment).length)
        (current ++ segment) segments := by
  induction segment generalizing offset current with
  | nil => simp
  | cons byte segment ih =>
    by_cases hbyte : byte = 0
    · subst hbyte
      simp only [encodeSegmentPrefix_cons, escapeByte, if_pos, cons_append, nil_append,
        decodeSegmentsLoop]
      simp [ih, Nat.add_assoc, Nat.add_comm 2]
    · simp only [encodeSegmentPrefix_cons, escapeByte, if_neg hbyte, cons_append,
        nil_append, decodeSegmentsLoop_cons hbyte]
      simp [ih, Nat.add_assoc, Nat.add_comm 1]

/-- The segments of a key, one after the other. -/
def encodeSegments (segments : List Bytes) : Bytes := segments.flatMap encodeSegment

theorem decodeSegmentsLoop_encode (segments done : List Bytes) (offset : Nat) :
    decodeSegmentsLoop (encodeSegments segments) offset [] done = .ok (done ++ segments) := by
  induction segments generalizing offset done with
  | nil => simp [encodeSegments, decodeSegmentsLoop]
  | cons segment segments ih =>
    have hsplit : encodeSegments (segment :: segments) =
        encodeSegmentPrefix segment ++ (0 :: 0 :: encodeSegments segments) := by
      simp [encodeSegments, encodeSegment_eq]
    rw [hsplit, decodeSegmentsLoop_escaped]
    simp [decodeSegmentsLoop, ih]

theorem decodeSegments_encode : decodeSegments (encodeSegments segments) = .ok segments := by
  simpa [decodeSegments] using decodeSegmentsLoop_encode segments [] 0

theorem encodeSegmentPrefix_append (a b : Bytes) :
    encodeSegmentPrefix (a ++ b) = encodeSegmentPrefix a ++ encodeSegmentPrefix b :=
  flatMap_append

theorem encodeSegments_cons (segments : List Bytes) :
    encodeSegments (segment :: segments) = encodeSegment segment ++ encodeSegments segments := rfl

/-- What the decoding loop accepts: the rest of the segment it is in, and whole segments. -/
theorem decodeSegmentsLoop_inv {offset : Nat} {current : Bytes} {segments all : List Bytes}
    (h : decodeSegmentsLoop key offset current segments = .ok all) :
    ∃ rest, all = segments ++ rest ∧ encodeSegmentPrefix current ++ key = encodeSegments rest := by
  induction key, offset, current, segments using decodeSegmentsLoop.induct with
  | case1 offset current segments hempty =>
    obtain rfl : current = [] := isEmpty_iff.mp hempty
    simp only [decodeSegmentsLoop, isEmpty_nil, if_true, Except.ok.injEq] at h
    exact ⟨[], by simp [h], rfl⟩
  | case2 offset current segments hempty => simp [decodeSegmentsLoop, hempty] at h
  | case3 offset current segments byte rest hbyte ih =>
    rw [decodeSegmentsLoop_cons hbyte] at h
    obtain ⟨found, hall, hkey⟩ := ih h
    refine ⟨found, hall, ?_⟩
    rw [← hkey, encodeSegmentPrefix_append]
    simp [escapeByte, hbyte]
  | case4 byte offset current segments hbyte =>
    obtain rfl : byte = 0 := not_not.mp hbyte
    simp [decodeSegmentsLoop] at h
  | case5 byte offset current segments hbyte rest ih =>
    -- the terminator: the segment read so far is complete
    obtain rfl : byte = 0 := not_not.mp hbyte
    simp only [decodeSegmentsLoop, ne_eq, not_true_eq_false, if_false, if_true] at h
    obtain ⟨found, hall, hkey⟩ := ih h
    refine ⟨current :: found, by simp [hall], ?_⟩
    rw [encodeSegments_cons, ← hkey, encodeSegment_eq]
    simp
  | case6 byte offset current segments hbyte rest hzero ih =>
    obtain rfl : byte = 0 := not_not.mp hbyte
    simp only [decodeSegmentsLoop, ne_eq, not_true_eq_false, if_false, hzero, if_true] at h
    obtain ⟨found, hall, hkey⟩ := ih h
    refine ⟨found, hall, ?_⟩
    rw [← hkey, encodeSegmentPrefix_append]
    simp [escapeByte]
  | case7 byte offset current segments hbyte marker rest hzero hescape =>
    obtain rfl : byte = 0 := not_not.mp hbyte
    simp [decodeSegmentsLoop, hzero, hescape] at h

/-- The decoder accepts exactly the encodings. -/
theorem decodeSegments_iff (key : Bytes) (segments : List Bytes) :
    decodeSegments key = .ok segments ↔ key = encodeSegments segments := by
  constructor
  · intro h
    obtain ⟨rest, rfl, hkey⟩ := decodeSegmentsLoop_inv h
    exact hkey
  · intro h
    rw [h, decodeSegments_encode]

theorem encodeSegments_lt_iff (a b : List Bytes) : encodeSegments a < encodeSegments b ↔ a < b := by
  -- an encoded segment is never empty
  have hpos : ∀ (segment : Bytes) (segments : List Bytes),
      [] < encodeSegments (segment :: segments) := by
    intro segment segments
    rw [encodeSegments_cons, encodeSegment_eq]
    cases encodeSegmentPrefix segment <;> simp
  induction a generalizing b with
  | nil =>
    cases b with
    | nil => simp [encodeSegments]
    | cons y b => exact iff_of_true (hpos y b) (by simp)
  | cons x a ih =>
    cases b with
    | nil => exact iff_of_false (lt_asymm (hpos x a)) (by simp)
    | cons y b =>
      rw [encodeSegments_cons, encodeSegments_cons, encodeSegment_orderCode.lt_iff,
        cons_lt_cons_iff]
      exact or_congr_right (and_congr_right fun _ => ih b)

/-- An encoding starts with whole segments and the beginning of one more. An empty beginning
may be that of no segment at all. -/
theorem encodeSegments_start_iff (start : Bytes) (list : List Bytes) :
    encodeSegments segments ++ encodeSegmentPrefix start <+: encodeSegments list ↔
      (∃ next rest, list = segments ++ next :: rest ∧ start <+: next) ∨
        start = [] ∧ list = segments := by
  induction segments generalizing list with
  | nil =>
    cases list with
    | nil =>
      have hempty : encodeSegmentPrefix start = [] ↔ start = [] := by
        cases start with
        | nil => simp
        | cons byte start => by_cases hbyte : byte = 0 <;> simp [escapeByte, hbyte]
      simp [encodeSegments, hempty]
    | cons x list =>
      have hx := encodeSegmentPrefix_iff start x (encodeSegments list)
      simpa [encodeSegments] using hx
  | cons x segments ih =>
    rw [encodeSegments_cons, append_assoc]
    cases list with
    | nil => simp [encodeSegments, encodeSegment_eq]
    | cons y list =>
      rw [encodeSegments_cons, encodeSegment_orderCode.append_prefix_append_iff, ih]
      constructor
      · rintro ⟨rfl, ⟨next, rest, rfl, hstart⟩ | ⟨hstart, rfl⟩⟩
        · exact .inl ⟨next, rest, rfl, hstart⟩
        · exact .inr ⟨hstart, rfl⟩
      · rintro (⟨next, rest, hlist, hstart⟩ | ⟨hstart, hlist⟩)
        · obtain ⟨rfl, rfl⟩ := cons.inj hlist
          exact ⟨rfl, .inl ⟨next, rest, rfl, hstart⟩⟩
        · obtain ⟨rfl, rfl⟩ := cons.inj hlist
          exact ⟨rfl, .inr ⟨hstart, rfl⟩⟩

/-! ### Intervals of a prefix -/

theorem byte_lt_succ (h : a ≠ 0xff) (b : UInt8) : b < a + 1 ↔ b ≤ a := by
  have ha : a.toNat < 255 := by
    have hlt := a.toNat_lt
    have hne : a.toNat ≠ 255 := fun heq => h (UInt8.toNat_inj.mp heq)
    omega
  rw [UInt8.lt_iff_toNat_lt, UInt8.le_iff_toNat_le, UInt8.toNat_add]
  simp only [UInt8.toNat_one]
  omega

/-- Within the extensions of `w`, those from `w ++ [a]` on and below `w ++ [b]`. -/
theorem prefix_snoc_of_between {w x : Bytes} (hpre : w <+: x) (hlow : w ++ [a] ≤ x)
    (hhigh : ∀ b rest, x = w ++ b :: rest → b ≤ a) : w ++ [a] <+: x := by
  obtain ⟨y, rfl⟩ := hpre
  rw [OrderCode.append_le_append_iff] at hlow
  cases y with
  | nil => exact absurd hlow (not_le.mpr (by simp))
  | cons b rest =>
    have hle := hhigh b rest rfl
    rw [← not_lt, cons_lt_cons_iff, not_or] at hlow
    obtain rfl : b = a := le_antisymm hle (not_lt.mp hlow.1)
    exact ⟨rest, by simp⟩

/-- The keys from a prefix up to its `prefix_end` are those that start with it. -/
theorem mem_prefixEnd (w x : Bytes) :
    (w ≤ x ∧ endsBeforeOrAt (prefixEnd w) x = false) ↔ w <+: x := by
  -- the loop works from the last byte on
  induction w using reverseRecOn with
  | nil => simp [prefixEnd, prefixEndLoop, endsBeforeOrAt, ← not_lt]
  | append_singleton w a ih =>
    by_cases ha : a = 0xff
    · have hend : prefixEnd (w ++ [a]) = prefixEnd w := by
        simp [prefixEnd, prefixEndLoop, ha]
      rw [hend]
      constructor
      · rintro ⟨hlow, hhigh⟩
        have hpre := ih.mp ⟨(OrderCode.le_append w [a]).trans hlow, hhigh⟩
        refine prefix_snoc_of_between hpre hlow fun b _ _ => ?_
        have hlt := b.toNat_lt
        rw [ha, UInt8.le_iff_toNat_le]
        exact Nat.le_of_lt_succ hlt
      · intro hpre
        obtain ⟨y, rfl⟩ := hpre
        refine ⟨OrderCode.le_append _ _, (ih.mpr ?_).2⟩
        exact ⟨a :: y, by simp⟩
    · have hend : prefixEnd (w ++ [a]) = some (w ++ [a + 1]) := by
        simp [prefixEnd, prefixEndLoop, ha]
      have hhigh : endsBeforeOrAt (prefixEnd (w ++ [a])) x = false ↔ x < w ++ [a + 1] := by
        simp [hend, endsBeforeOrAt]
      rw [hhigh]
      constructor
      · rintro ⟨hlow, hlt⟩
        refine prefix_snoc_of_between (OrderCode.prefix_of_between hlow hlt) hlow ?_
        rintro b rest rfl
        rw [OrderCode.append_lt_append_iff, cons_lt_cons_iff] at hlt
        rcases hlt with hlt | ⟨-, hlt⟩
        · exact (byte_lt_succ ha b).mp hlt
        · exact absurd hlt (by simp)
      · rintro ⟨y, rfl⟩
        refine ⟨OrderCode.le_append _ _, ?_⟩
        rw [append_assoc, OrderCode.append_lt_append_iff, singleton_append, cons_lt_cons_iff]
        exact .inl ((byte_lt_succ ha a).mpr le_rfl)

/-- Segment keys are tuples: what the decoder accepts, the order of keys, the keys of a tuple's
beginning, and the interval of the keys that start with a byte string. -/
theorem segmentKeys_areTuples :
    (∀ key segments, decodeSegments key = .ok segments ↔ key = encodeSegments segments) ∧
      (∀ a b, encodeSegments a < encodeSegments b ↔ a < b) ∧
      (∀ segments start list,
        encodeSegments segments ++ encodeSegmentPrefix start <+: encodeSegments list ↔
          (∃ next rest, list = segments ++ next :: rest ∧ start <+: next) ∨
            start = [] ∧ list = segments) ∧
      ∀ start key : Bytes, start <+: key ↔
        start ≤ key ∧ ∀ stop, prefixEnd start = some stop → key < stop := by
  refine ⟨decodeSegments_iff, encodeSegments_lt_iff, encodeSegments_start_iff, ?_⟩
  intro start key
  rw [← mem_prefixEnd start key]
  refine and_congr_right fun _ => ?_
  cases prefixEnd start with
  | none => simp [endsBeforeOrAt]
  | some stop => simp [endsBeforeOrAt]

/-- The key of a whole tuple starts with it, and no segment follows. -/
theorem encodeSegments_start_noNext :
    encodeSegments [] ++ encodeSegmentPrefix [] <+: encodeSegments [] ∧
      ¬ ∃ next rest, ([] : List Bytes) = [] ++ next :: rest ∧ [] <+: next := by
  refine ⟨by decide, ?_⟩
  rintro ⟨next, rest, hlist, -⟩
  cases hlist

/-! ### Physical index keys -/

/-- `DecodedPhysicalIndexKey`. -/
structure DecodedPhysicalIndexKey where
  term : Bytes
  primaryKey : Bytes
  deriving DecidableEq

/-- `physical_index_key`. -/
def physicalIndexKey (term primaryKey : Bytes) : IndexResult Bytes :=
  if u64Max < term.length * 2 + min (primaryKey.length * 2) u64Max + 4 then
    .error (.indexResourceLimitExceeded "physical_key_bytes" u64Max u64Max)
  else .ok (encodeSegment term ++ encodeSegment primaryKey)

/-- `decode_physical_index_key`. -/
def decodePhysicalIndexKey (key : Bytes) : IndexResult DecodedPhysicalIndexKey :=
  match decodeSegments key with
  | .error error => .error (.deserialize error.display)
  | .ok [term, primaryKey] => .ok ⟨term, primaryKey⟩
  | .ok segments =>
    .error (.deserialize ("physical secondary-index key must contain two segments, got " ++
      toString segments.length))

/-- The loop of `decode_physical_segment_ref` up to the terminator: the bytes passed,
whether one of them was escaped, and what follows. -/
def physicalSegmentLoop : Bytes → Bytes → Bool → IndexResult (Bytes × Bool × Bytes)
  | [], _, _ => .error (.deserialize "unterminated physical secondary-index segment")
  | byte :: rest, slice, escaped =>
    if byte ≠ 0 then physicalSegmentLoop rest (slice ++ [byte]) escaped
    else
      match rest with
      | [] => .error (.deserialize "truncated physical secondary-index escape")
      | marker :: rest =>
        if marker = 0x00 then .ok (slice, escaped, rest)
        else if marker = 0xff then physicalSegmentLoop rest (slice ++ [0x00, 0xff]) true
        else .error (.deserialize "invalid physical secondary-index escape")

/-- The second loop of `decode_physical_segment_ref`, which undoes the escapes. -/
def unescapeSegment : Bytes → Bytes
  | [] => []
  | byte :: rest =>
    if byte = 0 then
      match rest with
      | [] => [0]
      | _ :: rest => 0 :: unescapeSegment rest
    else byte :: unescapeSegment rest

/-- `decode_physical_segment_ref`: the segment at the front of a key, and what follows. -/
def decodePhysicalSegmentRef (key : Bytes) : IndexResult (Bytes × Bytes) := do
  let (slice, escaped, rest) ← physicalSegmentLoop key [] false
  .ok (if escaped then unescapeSegment slice else slice, rest)

/-- `decode_physical_index_key_ref`. -/
def decodePhysicalIndexKeyRef (key : Bytes) : IndexResult DecodedPhysicalIndexKey := do
  let (term, rest) ← decodePhysicalSegmentRef key
  let (primaryKey, rest) ← decodePhysicalSegmentRef rest
  if rest ≠ [] then
    .error (.deserialize "physical secondary-index key must contain exactly two segments")
  else .ok ⟨term, primaryKey⟩

theorem physicalIndexKey_eq (h : physicalIndexKey term primaryKey = .ok key) :
    key = encodeSegment term ++ encodeSegment primaryKey := by
  unfold physicalIndexKey at h
  split at h
  · cases h
  · exact (Except.ok.inj h).symm

/-- Physical keys are ordered by term and then by primary key. -/
theorem physicalIndexKey_lt_iff {term' primaryKey' key' : Bytes}
    (h : physicalIndexKey term primaryKey = .ok key)
    (h' : physicalIndexKey term' primaryKey' = .ok key') :
    key < key' ↔ term < term' ∨ term = term' ∧ primaryKey < primaryKey' := by
  rw [physicalIndexKey_eq h, physicalIndexKey_eq h', encodeSegment_orderCode.lt_iff]
  have hpk := encodeSegment_orderCode.append_lt_iff (a := primaryKey') (b := primaryKey) (r := [])
  rw [append_nil] at hpk
  rw [hpk]

theorem decodePhysicalIndexKey_eq (h : physicalIndexKey term primaryKey = .ok key) :
    decodePhysicalIndexKey key = .ok ⟨term, primaryKey⟩ := by
  have hkey : key = encodeSegments [term, primaryKey] := by
    simp [physicalIndexKey_eq h, encodeSegments]
  rw [decodePhysicalIndexKey, hkey, decodeSegments_encode]

theorem physicalSegmentLoop_cons (h : byte ≠ 0) (rest slice : Bytes) (escaped : Bool) :
    physicalSegmentLoop (byte :: rest) slice escaped =
      physicalSegmentLoop rest (slice ++ [byte]) escaped := by
  cases rest <;> simp [physicalSegmentLoop, h]

theorem physicalSegmentLoop_escaped (segment rest slice : Bytes) (escaped : Bool) :
    physicalSegmentLoop (encodeSegmentPrefix segment ++ 0 :: 0 :: rest) slice escaped =
      .ok (slice ++ encodeSegmentPrefix segment, escaped || segment.contains 0, rest) := by
  induction segment generalizing slice escaped with
  | nil => simp [physicalSegmentLoop]
  | cons byte segment ih =>
    by_cases hbyte : byte = 0
    · subst hbyte
      simp only [encodeSegmentPrefix_cons, escapeByte, if_pos, cons_append, nil_append,
        physicalSegmentLoop]
      simp [ih]
    · simp only [encodeSegmentPrefix_cons, escapeByte, if_neg hbyte, cons_append,
        nil_append, physicalSegmentLoop_cons hbyte]
      simp [ih, Ne.symm hbyte]

theorem unescapeSegment_cons (h : byte ≠ 0) (rest : Bytes) :
    unescapeSegment (byte :: rest) = byte :: unescapeSegment rest := by
  cases rest <;> simp [unescapeSegment, h]

theorem unescapeSegment_encode : unescapeSegment (encodeSegmentPrefix segment) = segment := by
  induction segment with
  | nil => rfl
  | cons byte segment ih =>
    by_cases hbyte : byte = 0
    · simp [escapeByte, hbyte, unescapeSegment, ih]
    · simp [escapeByte, hbyte, unescapeSegment_cons, ih]

/-- A segment without zero bytes is written as it is. -/
theorem encodeSegmentPrefix_of_not_mem {segment : Bytes} (h : (0 : UInt8) ∉ segment) :
    encodeSegmentPrefix segment = segment := by
  induction segment with
  | nil => rfl
  | cons byte segment ih =>
    rw [mem_cons, not_or] at h
    simp [escapeByte, Ne.symm h.1, ih h.2]

theorem decodePhysicalSegmentRef_encode :
    decodePhysicalSegmentRef (encodeSegment segment ++ rest) = .ok (segment, rest) := by
  have hsplit : encodeSegment segment ++ rest =
      encodeSegmentPrefix segment ++ 0 :: 0 :: rest := by
    simp [encodeSegment_eq]
  rw [decodePhysicalSegmentRef, hsplit, physicalSegmentLoop_escaped]
  by_cases hzero : (0 : UInt8) ∈ segment
  · simp [hzero, unescapeSegment_encode]
  · simp [hzero, encodeSegmentPrefix_of_not_mem hzero]

theorem decodePhysicalIndexKeyRef_eq (h : physicalIndexKey term primaryKey = .ok key) :
    decodePhysicalIndexKeyRef key = .ok ⟨term, primaryKey⟩ := by
  have hpk := decodePhysicalSegmentRef_encode primaryKey []
  rw [append_nil] at hpk
  rw [decodePhysicalIndexKeyRef, physicalIndexKey_eq h, decodePhysicalSegmentRef_encode]
  simp [hpk]

theorem physicalSegmentLoop_inv {slice slice' rest : Bytes} {escaped escaped' : Bool}
    (h : physicalSegmentLoop key slice escaped = .ok (slice', escaped', rest)) :
    ∃ segment, key = encodeSegment segment ++ rest := by
  induction key, slice, escaped using physicalSegmentLoop.induct with
  | case1 slice escaped => cases h
  | case2 byte slice escaped tail hbyte ih =>
    rw [physicalSegmentLoop_cons hbyte] at h
    obtain ⟨segment, rfl⟩ := ih h
    exact ⟨byte :: segment, by simp [encodeSegment, escapeByte, hbyte]⟩
  | case3 byte slice escaped hbyte =>
    obtain rfl : byte = 0 := not_not.mp hbyte
    simp [physicalSegmentLoop] at h
  | case4 byte slice escaped hbyte tail =>
    obtain rfl : byte = 0 := not_not.mp hbyte
    simp only [physicalSegmentLoop, ne_eq, not_true_eq_false, if_false, if_true, Except.ok.injEq,
      Prod.mk.injEq] at h
    exact ⟨[], by simp [encodeSegment, h.2.2]⟩
  | case5 byte slice escaped hbyte tail hzero ih =>
    obtain rfl : byte = 0 := not_not.mp hbyte
    simp only [physicalSegmentLoop, ne_eq, not_true_eq_false, if_false, hzero, if_true] at h
    obtain ⟨segment, rfl⟩ := ih h
    exact ⟨0 :: segment, by simp [encodeSegment, escapeByte]⟩
  | case6 byte slice escaped hbyte marker tail hzero hescape =>
    obtain rfl : byte = 0 := not_not.mp hbyte
    simp [physicalSegmentLoop, hzero, hescape] at h

theorem decodePhysicalSegmentRef_iff (key segment rest : Bytes) :
    decodePhysicalSegmentRef key = .ok (segment, rest) ↔ key = encodeSegment segment ++ rest := by
  constructor
  · intro h
    cases hloop : physicalSegmentLoop key [] false with
    | error error => simp [decodePhysicalSegmentRef, hloop] at h
    | ok result =>
      obtain ⟨slice, escaped, tail⟩ := result
      obtain ⟨found, rfl⟩ := physicalSegmentLoop_inv hloop
      rw [decodePhysicalSegmentRef_encode] at h
      obtain ⟨rfl, rfl⟩ := Prod.mk.inj (Except.ok.inj h)
      rfl
  · intro h
    rw [h, decodePhysicalSegmentRef_encode]

theorem decodePhysicalIndexKeyRef_iff (key : Bytes) (decoded : DecodedPhysicalIndexKey) :
    decodePhysicalIndexKeyRef key = .ok decoded ↔
      key = encodeSegment decoded.term ++ encodeSegment decoded.primaryKey := by
  constructor
  · intro h
    cases hterm : decodePhysicalSegmentRef key with
    | error error => simp [decodePhysicalIndexKeyRef, hterm] at h
    | ok first =>
      obtain ⟨term, rest⟩ := first
      cases hprimary : decodePhysicalSegmentRef rest with
      | error error => simp [decodePhysicalIndexKeyRef, hterm, hprimary] at h
      | ok second =>
        obtain ⟨primaryKey, tail⟩ := second
        by_cases htail : tail = []
        · subst htail
          have hdecoded : (⟨term, primaryKey⟩ : DecodedPhysicalIndexKey) = decoded := by
            simpa [decodePhysicalIndexKeyRef, hterm, hprimary] using h
          rw [decodePhysicalSegmentRef_iff] at hterm hprimary
          rw [hterm, hprimary, ← hdecoded, append_nil]
        · simp [decodePhysicalIndexKeyRef, hterm, hprimary, htail] at h
  · intro h
    have hprimary := decodePhysicalSegmentRef_encode decoded.primaryKey []
    rw [append_nil] at hprimary
    simp [decodePhysicalIndexKeyRef, h, decodePhysicalSegmentRef_encode, hprimary]

theorem decodePhysicalIndexKey_iff (key : Bytes) (decoded : DecodedPhysicalIndexKey) :
    decodePhysicalIndexKey key = .ok decoded ↔
      key = encodeSegment decoded.term ++ encodeSegment decoded.primaryKey := by
  have hpair : encodeSegment decoded.term ++ encodeSegment decoded.primaryKey =
      encodeSegments [decoded.term, decoded.primaryKey] := by
    simp [encodeSegments]
  rw [hpair, ← decodeSegments_iff]
  unfold decodePhysicalIndexKey
  constructor
  · intro h
    split at h
    · cases h
    · next term primaryKey hsegments =>
        cases h
        exact hsegments
    · cases h
  · intro h
    rw [h]

/-! ### The interval of a query -/

/-- `TermBounds`. -/
structure TermBounds where
  start : Bytes
  stop : Option Bytes
  deriving DecidableEq

/-- `term_bounds_exact`. -/
def termBoundsExact (term : Bytes) : TermBounds :=
  ⟨encodeSegment term, prefixEnd (encodeSegment term)⟩

/-- `term_bounds_prefix`. -/
def termBoundsPrefix (start : Bytes) : TermBounds :=
  ⟨encodeSegmentPrefix start, prefixEnd (encodeSegmentPrefix start)⟩

/-- `term_bounds_range`. -/
def termBoundsRange (startTerm : Bytes) (endTerm : Option Bytes) : IndexResult TermBounds :=
  if endTerm.any fun stop => stop < startTerm then
    .error (.invalidIndexDefinition "secondary-index term range start exceeds end")
  else .ok ⟨encodeSegment startTerm, endTerm.map encodeSegment⟩

/-- `LogicalBounds`: the terms a query asks for. -/
inductive LogicalBounds where
  | exactTerm (term : Bytes)
  | termPrefix (start : Bytes)
  | termRange (start : Bytes) (stop : Option Bytes)
  deriving DecidableEq

/-- `physical_bounds`. -/
def physicalBounds : LogicalBounds → IndexResult TermBounds
  | .exactTerm term => .ok (termBoundsExact term)
  | .termPrefix start => .ok (termBoundsPrefix start)
  | .termRange start stop => termBoundsRange start stop

/-- What a query asks of a term. -/
def LogicalBounds.matches : LogicalBounds → Bytes → Bool
  | .exactTerm wanted, term => term = wanted
  | .termPrefix start, term => start.isPrefixOf term
  | .termRange start stop, term => start ≤ term && !endsBeforeOrAt stop term

variable {bounds : LogicalBounds}

/-- The keys of an interval whose terms a query asks for. -/
theorem physicalBounds_spec {physical : TermBounds} (h : physicalBounds bounds = .ok physical)
    (term rest : Bytes) :
    (physical.start ≤ encodeSegment term ++ rest ∧
      endsBeforeOrAt physical.stop (encodeSegment term ++ rest) = false) ↔
      bounds.matches term = true := by
  cases bounds with
  | exactTerm wanted =>
    cases h
    refine (mem_prefixEnd (encodeSegment wanted) _).trans ?_
    rw [encodeSegment_orderCode.prefix_append_iff, eq_comm]
    simp [LogicalBounds.matches]
  | termPrefix start =>
    cases h
    refine (mem_prefixEnd (encodeSegmentPrefix start) _).trans ?_
    simp [encodeSegmentPrefix_iff, LogicalBounds.matches]
  | termRange start stop =>
    simp only [physicalBounds, termBoundsRange] at h
    split at h
    · cases h
    · cases h
      simp only [encodeSegment_orderCode.le_append_iff, LogicalBounds.matches, Bool.and_eq_true,
        decide_eq_true_eq, Bool.not_eq_true']
      refine and_congr_right fun _ => ?_
      cases stop with
      | none => rfl
      | some stop => simp [endsBeforeOrAt, encodeSegment_orderCode.append_lt_iff]

/-- Only a range that ends before it starts is refused, and no term lies in it. -/
theorem physicalBounds_error {error : IndexError} (h : physicalBounds bounds = .error error) :
    error = .invalidIndexDefinition "secondary-index term range start exceeds end" ∧
      ∀ term, bounds.matches term = false := by
  cases bounds with
  | exactTerm term => cases h
  | termPrefix start => cases h
  | termRange start stop =>
    simp only [physicalBounds, termBoundsRange] at h
    split at h
    · next hany =>
        refine ⟨(Except.error.inj h).symm, fun term => ?_⟩
        cases stop with
        | none => cases hany
        | some stop =>
          have hlt : stop < start := by simpa using hany
          simp only [LogicalBounds.matches, endsBeforeOrAt, Bool.and_eq_false_iff,
            decide_eq_false_iff_not, not_le, Bool.not_eq_false', decide_eq_true_eq]
          rcases lt_or_ge term start with hterm | hterm
          · exact .inl hterm
          · exact .inr (hlt.le.trans hterm)
    · cases h

/-! ### Index values -/

/-- `u32::MAX`. -/
def u32Max : Nat := 2 ^ 32 - 1

/-- `IndexValue`. -/
inductive IndexValue where
  | keysOnly
  | included (payload : Bytes)
  | fullSource (payload : Bytes)
  deriving DecidableEq

namespace IndexValue

open TreeFormat (fromBeBytes)

/-- `INDEX_VALUE_MAGIC` and `INDEX_VALUE_FORMAT`. -/
def header : Bytes := [0x50, 0x53, 0x49, 0x56] ++ beBytes 4 1

def envelope (tag : UInt8) (payload : Bytes) : IndexResult Bytes :=
  if u32Max < payload.length then
    .error (.indexResourceLimitExceeded "projection_bytes" u32Max payload.length)
  else .ok (header ++ [tag] ++ beBytes 4 payload.length ++ payload)

/-- `IndexValue::to_bytes`. -/
def toBytes : IndexValue → IndexResult Bytes
  | keysOnly => .ok []
  | included payload => envelope 1 payload
  | fullSource payload => envelope 2 payload

def payload : IndexValue → Bytes
  | keysOnly => []
  | included payload => payload
  | fullSource payload => payload

end IndexValue

/-- `IndexValueRef`: its payload is a slice of the bytes it was read from. -/
inductive IndexValueRef where
  | keysOnly
  | included (payload : Bytes)
  | fullSource (payload : Bytes)
  deriving DecidableEq

/-- `IndexValueRef::decode`. -/
def IndexValueRef.decode (bytes : Bytes) (maxPayloadBytes : Nat) : IndexResult IndexValueRef :=
  if bytes = [] then .ok .keysOnly
  else if bytes.length < 13 || bytes.take 4 ≠ [0x50, 0x53, 0x49, 0x56] then
    .error (.deserialize "invalid secondary-index value envelope")
  else if TreeFormat.fromBeBytes ((bytes.drop 4).take 4) ≠ 1 then
    .error (.deserialize "unsupported secondary-index value format")
  else
    let payloadLen := TreeFormat.fromBeBytes ((bytes.drop 9).take 4)
    if maxPayloadBytes < payloadLen then
      .error (.indexResourceLimitExceeded "projection_bytes" maxPayloadBytes payloadLen)
    else if bytes.length ≠ saturatingAdd 13 payloadLen then
      .error (.deserialize "secondary-index value length mismatch or trailing bytes")
    else if bytes[8]? = some 1 then .ok (.included (bytes.drop 13))
    else if bytes[8]? = some 2 then .ok (.fullSource (bytes.drop 13))
    else .error (.deserialize "unknown secondary-index value projection")

/-- `IndexValueRef::to_owned`. -/
def IndexValueRef.toOwned : IndexValueRef → IndexValue
  | keysOnly => .keysOnly
  | included payload => .included payload
  | fullSource payload => .fullSource payload

/-- `IndexValue::from_bytes`. -/
def IndexValue.fromBytes (bytes : Bytes) (maxPayloadBytes : Nat) : IndexResult IndexValue := do
  let value ← IndexValueRef.decode bytes maxPayloadBytes
  .ok value.toOwned

namespace IndexValue

open TreeFormat (fromBeBytes)

theorem fromBeBytes_beBytes {width n : Nat} (h : n < 256 ^ width) :
    fromBeBytes (beBytes width n) = n :=
  PrefixCode.ofBigEndian_bigEndian h

variable {tag : UInt8} {bytes : Bytes} {maxPayloadBytes : Nat} {value : IndexValue}

/-- Reading an envelope: the checks pass and the tag selects the kind of the value. -/
theorem decode_envelope {payload : Bytes} (h : envelope tag payload = .ok bytes)
    (hmax : payload.length ≤ maxPayloadBytes) :
    IndexValueRef.decode bytes maxPayloadBytes =
      if tag = 1 then .ok (.included payload)
      else if tag = 2 then .ok (.fullSource payload)
      else .error (.deserialize "unknown secondary-index value projection") := by
  unfold envelope at h
  split at h
  · cases h
  next hlen =>
  cases h
  obtain ⟨digits, hdigits, hsize⟩ :
      ∃ digits, beBytes 4 payload.length = digits ∧ digits.length = 4 := ⟨_, rfl, by simp⟩
  have hnumber : fromBeBytes digits = payload.length := by
    rw [← hdigits]
    refine fromBeBytes_beBytes ?_
    unfold u32Max at hlen
    omega
  rw [hdigits]
  obtain ⟨a, b, c, d, rfl⟩ : ∃ a b c d, digits = [a, b, c, d] := by
    match digits, hsize with
    | [a, b, c, d], _ => exact ⟨a, b, c, d, rfl⟩
  have hheader : header = [0x50, 0x53, 0x49, 0x56, 0, 0, 0, 1] := by decide
  have hone : fromBeBytes [0, 0, 0, 1] = 1 := by decide
  have htotal : saturatingAdd 13 payload.length = payload.length + 13 := by
    unfold u32Max at hlen
    unfold saturatingAdd u64Max
    omega
  simp [IndexValueRef.decode, hheader, hone, hnumber, htotal, Nat.not_lt.mpr hmax]

theorem fromBytes_toBytes (h : value.toBytes = .ok bytes)
    (hmax : value.payload.length ≤ maxPayloadBytes) :
    fromBytes bytes maxPayloadBytes = .ok value := by
  cases value with
  | keysOnly =>
    cases h
    rfl
  | included payload =>
    rw [fromBytes, decode_envelope h hmax]
    rfl
  | fullSource payload =>
    rw [fromBytes, decode_envelope h hmax]
    rfl

/-- How long a stored value is. -/
theorem toBytes_length (h : value.toBytes = .ok bytes) :
    bytes.length = match value with
      | keysOnly => 0
      | included payload => 13 + payload.length
      | fullSource payload => 13 + payload.length := by
  have henvelope : ∀ {tag : UInt8} {payload : Bytes}, envelope tag payload = .ok bytes →
      bytes.length = 13 + payload.length := by
    intro tag payload h
    unfold envelope at h
    split at h
    · cases h
    · cases h
      simp [header]
      omega
  cases value with
  | keysOnly =>
    cases h
    rfl
  | included payload => exact henvelope h
  | fullSource payload => exact henvelope h

/-- The parts of an envelope that passes the checks. -/
theorem envelope_of_parts (hlong : 13 ≤ bytes.length)
    (hmagic : bytes.take 4 = [0x50, 0x53, 0x49, 0x56])
    (hversion : fromBeBytes ((bytes.drop 4).take 4) = 1)
    (hlen : bytes.length = saturatingAdd 13 (fromBeBytes ((bytes.drop 9).take 4)))
    (htag : bytes[8]? = some tag) :
    envelope tag (bytes.drop 13) = .ok bytes ∧
      (bytes.drop 13).length = fromBeBytes ((bytes.drop 9).take 4) := by
  have hdigits : ∀ k, k + 4 ≤ bytes.length → fromBeBytes ((bytes.drop k).take 4) < 256 ^ 4 ∧
      beBytes 4 (fromBeBytes ((bytes.drop k).take 4)) = (bytes.drop k).take 4 := fun k hk =>
    PrefixCode.ofBigEndian_take _ (by rw [length_drop]; omega)
  have hbound : fromBeBytes ((bytes.drop 9).take 4) ≤ u32Max :=
    Nat.le_of_lt_succ (hdigits 9 (by omega)).1
  have hpayload : (bytes.drop 13).length = fromBeBytes ((bytes.drop 9).take 4) := by
    rw [length_drop, hlen]
    unfold saturatingAdd u64Max
    unfold u32Max at hbound
    omega
  refine ⟨?_, hpayload⟩
  have hnine : (bytes.drop 9).take 4 ++ bytes.drop 13 = bytes.drop 9 := by
    simpa using take_append_drop 4 (bytes.drop 9)
  have height : tag :: bytes.drop 9 = bytes.drop 8 := by
    obtain ⟨hlt, heq⟩ := List.getElem?_eq_some_iff.mp htag
    rw [← heq, ← drop_eq_getElem_cons hlt]
  have hfour : (bytes.drop 4).take 4 ++ bytes.drop 8 = bytes.drop 4 := by
    simpa using take_append_drop 4 (bytes.drop 4)
  rw [envelope, if_neg (by rw [hpayload]; exact Nat.not_lt.mpr hbound), hpayload,
    (hdigits 9 (by omega)).2, header, ← hmagic, ← hversion, (hdigits 4 (by omega)).2]
  simp only [append_assoc, cons_append, nil_append]
  rw [hnine, height, hfour, take_append_drop]

end IndexValue

/-! ### Borrowed values -/

theorem IndexValueRef.toBytes_of_decode {bytes : Bytes} {maxPayloadBytes : Nat}
    {value : IndexValueRef} (h : decode bytes maxPayloadBytes = .ok value) :
    value.toOwned.toBytes = .ok bytes ∧ value.toOwned.payload.length ≤ maxPayloadBytes := by
  unfold decode at h
  split at h
  · next hempty =>
      cases h
      exact ⟨by rw [hempty]; rfl, Nat.zero_le _⟩
  split at h
  · cases h
  next henvelope =>
  split at h
  · cases h
  next hversion =>
  simp only at h
  split at h
  · cases h
  next hmax =>
  split at h
  · cases h
  next hlen =>
  simp only [Bool.or_eq_true, decide_eq_true_eq, not_or, Nat.not_lt, ne_eq, not_not]
    at henvelope hversion hmax hlen
  split at h
  · next htag =>
      cases h
      obtain ⟨henv, hpayload⟩ :=
        IndexValue.envelope_of_parts henvelope.1 henvelope.2 hversion hlen htag
      exact ⟨henv, hpayload.trans_le hmax⟩
  split at h
  · next htag =>
      cases h
      obtain ⟨henv, hpayload⟩ :=
        IndexValue.envelope_of_parts henvelope.1 henvelope.2 hversion hlen htag
      exact ⟨henv, hpayload.trans_le hmax⟩
  · cases h

/-- The values read are exactly those that are written as these bytes and fit the limit. -/
theorem IndexValueRef.decode_iff (maxPayloadBytes : Nat) (value : IndexValueRef) :
    decode bytes maxPayloadBytes = .ok value ↔
      value.toOwned.toBytes = .ok bytes ∧ value.toOwned.payload.length ≤ maxPayloadBytes := by
  refine ⟨toBytes_of_decode, fun ⟨hbytes, hmax⟩ => ?_⟩
  have hread := IndexValue.fromBytes_toBytes hbytes hmax
  obtain ⟨found, hfound, heq⟩ := of_bind hread
  rw [hfound]
  cases found <;> cases value <;> simp_all [toOwned]

/-- The borrowed decoders accept what the owned ones accept and return the same, and the
decoders of values invert `to_bytes`. -/
theorem borrowedDecoders_agree :
    (∀ key decoded,
      decodePhysicalIndexKeyRef key = .ok decoded ↔ decodePhysicalIndexKey key = .ok decoded) ∧
      (∀ bytes limit,
        IndexValue.fromBytes bytes limit = (IndexValueRef.decode bytes limit).map (·.toOwned)) ∧
      (∀ bytes limit value, IndexValueRef.decode bytes limit = .ok value ↔
        value.toOwned.toBytes = .ok bytes ∧ value.toOwned.payload.length ≤ limit) ∧
      ∀ bytes limit value, IndexValue.fromBytes bytes limit = .ok value ↔
        value.toBytes = .ok bytes ∧ value.payload.length ≤ limit := by
  have hvalue : ∀ value : IndexValue, ∃ borrowed : IndexValueRef, borrowed.toOwned = value := by
    intro value
    cases value with
    | keysOnly => exact ⟨.keysOnly, rfl⟩
    | included payload => exact ⟨.included payload, rfl⟩
    | fullSource payload => exact ⟨.fullSource payload, rfl⟩
  refine ⟨fun key decoded => ?_, fun bytes limit => rfl, IndexValueRef.decode_iff,
    fun bytes limit value => ⟨fun h => ?_, fun h => ?_⟩⟩
  · rw [decodePhysicalIndexKeyRef_iff, decodePhysicalIndexKey_iff]
  · obtain ⟨borrowed, hdecode, howned⟩ := of_bind h
    obtain rfl : borrowed.toOwned = value := Except.ok.inj howned
    exact (IndexValueRef.decode_iff ..).mp hdecode
  · obtain ⟨borrowed, rfl⟩ := hvalue value
    rw [IndexValue.fromBytes, (IndexValueRef.decode_iff ..).mpr h]
    rfl

end Prolly

import Prolly.Emitter
import Prolly.NodeDecode

/-!
# Prolly.NodeRoundTrip

Decoding what was encoded, and the length of an encoding (`node.rs`,
`format.rs`).

Every reader undoes its writer with any bytes behind (`readVarint_write`,
`readBlock_write`, …), so the decoders follow the encoding loops entry by entry:
with the previous key for the prefix-compressed layout, with the payload written so
far for the offset table. `encoded_len` walks the entries with its own loops and
counts the same bytes.

What decodes is valid in the sense of `Node::validate`. Child values of internal
nodes are not part of it: they are checked for 32 bytes where a child is read.
-/

namespace Prolly

open PrefixCode
open List

/-! ### Format descriptors -/

namespace TreeFormat

theorem read_append {len : Nat} {bytes rest : Bytes} (h : bytes.length = len) :
    read data len (bytes ++ rest) = .ok (bytes, rest) := by
  subst h
  simp [read]

theorem readUint_write {width n : Nat} (h : n < 256 ^ width) (rest : Bytes) :
    readUint data width (beBytes width n ++ rest) = .ok (n, rest) := by
  have hback : fromBeBytes (beBytes width n) = n := ofBigEndian_bigEndian h
  simp only [readUint, read_append (bigEndian_length width n), ok_bind, hback, pure_eq]

/-- A tag is one byte. -/
theorem readUint_tag (tag : UInt8) (rest : Bytes) :
    readUint data 1 (tag :: rest) = .ok (tag.toNat, rest) := by
  simp [readUint, read, fromBeBytes]

theorem readUint_u64 (n : UInt64) (rest : Bytes) :
    readUint data 8 (beBytes 8 n.toNat ++ rest) = .ok (n.toNat, rest) :=
  readUint_write (by simpa using n.toNat_lt) rest

variable {bytes : Bytes}

theorem readVec_write (h : bytes.length < 2 ^ 64) (rest : Bytes) :
    readVec data (encodeBytes bytes ++ rest) = .ok (bytes, rest) := by
  rw [readVec, encodeBytes, append_assoc, readUint_write (by simpa using h), ok_bind]
  exact read_append rfl

theorem fromUTF8_strBytes (text : String) :
    String.fromUTF8? ⟨(strBytes text).toArray⟩ = some text := by
  have hbytes : (⟨(strBytes text).toArray⟩ : ByteArray) = text.toByteArray := by
    simp [strBytes]
  rw [hbytes, String.fromUTF8?, dif_pos text.isValidUTF8]
  exact congrArg some (String.toByteArray_inj.mp rfl)

theorem readString_write {text : String} (h : (strBytes text).length < 2 ^ 64) (rest : Bytes) :
    readString data (encodeBytes (strBytes text) ++ rest) = .ok (text, rest) := by
  simp only [readString, readVec_write h, ok_bind, fromUTF8_strBytes, pure_eq]

theorem readMeasure_write (measure : ChunkMeasure) (rest : Bytes) :
    readMeasure data (encodeMeasure measure :: rest) = .ok (measure, rest) := by
  rw [readMeasure, readUint_tag]
  cases measure <;> rfl

theorem readInput_write (input : BoundaryInput) (rest : Bytes) :
    readInput data (encodeInput input :: rest) = .ok (input, rest) := by
  rw [readInput, readUint_tag]
  cases input <;> rfl

theorem readHash_write (hash : HashAlgorithm) (rest : Bytes) :
    readHash data (encodeHash hash :: rest) = .ok (hash, rest) := by
  rw [readHash, readUint_tag]
  cases hash
  rfl

theorem readRule_write (rule : BoundaryRule) (rest : Bytes) :
    readRule data (encodeRule rule ++ rest) = .ok (rule, rest) := by
  cases rule with
  | hashThreshold factor =>
    have hfactor : readUint data 4 (beBytes 4 factor.toNat ++ rest) = .ok (factor.toNat, rest) :=
      readUint_write (by simpa using factor.toNat_lt) rest
    simp only [encodeRule, cons_append, readRule, readUint_tag, ok_bind,
      UInt8.toNat_zero, hfactor, pure_eq, UInt32.ofNat_toNat]
  | weibull shape =>
    have hshape : readUint data 4 (beBytes 4 shape.toNat ++ rest) = .ok (shape.toNat, rest) :=
      readUint_write (by simpa using shape.toNat_lt) rest
    simp only [encodeRule, cons_append, readRule, readUint_tag, ok_bind,
      UInt8.toNat_one, hshape, pure_eq, UInt32.ofNat_toNat]
  | rollingBuzHash window =>
    have hwindow : readUint data 2 (beBytes 2 window.toNat ++ rest) = .ok (window.toNat, rest) :=
      readUint_write (by simpa using window.toNat_lt) rest
    simp only [encodeRule, cons_append, readRule, readUint_tag, ok_bind,
      UInt8.reduceToNat, hwindow, pure_eq, UInt16.ofNat_toNat]

theorem readFlag_write (flag : Bool) (rest : Bytes) :
    readFlag data ((if flag then 1 else 0) :: rest) = .ok (flag, rest) := by
  rw [readFlag, readUint_tag]
  cases flag <;> rfl

theorem readChunking_write (spec : ChunkingSpec) (rest : Bytes) :
    readChunking data (encodeChunking spec ++ rest) = .ok (spec, rest) := by
  simp only [encodeChunking, append_assoc, cons_append, nil_append, readChunking,
    readMeasure_write, readInput_write, readHash_write, readRule_write, readUint_u64,
    readFlag_write, ok_bind, pure_eq, UInt64.ofNat_toNat]

/-- Names and parameters are shorter than 2^64 bytes, as every `String` and `Vec` is. -/
structure Sized (format : TreeFormat) : Prop where
  layout : ∀ id parameters, format.nodeLayout = .custom id parameters →
    (strBytes id).length < 2 ^ 64 ∧ parameters.length < 2 ^ 64
  encoding : ∀ name, format.valueEncoding = .custom name → (strBytes name).length < 2 ^ 64

theorem readLayout_write {layout : NodeLayoutSpec}
    (h : ∀ id parameters, layout = .custom id parameters →
    (strBytes id).length < 2 ^ 64 ∧ parameters.length < 2 ^ 64) (rest : Bytes) :
    readLayout data (encodeLayout layout ++ rest) = .ok (layout, rest) := by
  cases layout with
  | custom id parameters =>
    simp only [encodeLayout, cons_append, append_assoc, readLayout, readUint_tag,
      ok_bind, UInt8.reduceToNat, readString_write (h id parameters rfl).1,
      readVec_write (h id parameters rfl).2, pure_eq]
  | _ => rfl

theorem readEncoding_write {encoding : Encoding}
    (h : ∀ name, encoding = .custom name → (strBytes name).length < 2 ^ 64) (rest : Bytes) :
    readEncoding data (encodeValueEncoding encoding ++ rest) = .ok (encoding, rest) := by
  cases encoding with
  | custom name =>
    simp only [encodeValueEncoding, cons_append, readEncoding, readUint_tag, ok_bind,
      UInt8.reduceToNat, readString_write (h name rfl), pure_eq]
  | _ => rfl

/-- A canonical descriptor is read back. -/
theorem fromCanonicalBytes_canonicalBytes {format : TreeFormat} (hsized : format.Sized)
    (h : format.canonicalBytes = .ok bytes) : fromCanonicalBytes bytes = .ok format := by
  obtain ⟨_, hvalid, h⟩ := of_bind h
  obtain rfl := Except.ok.inj h
  have hend := fun data => @readEncoding_write data _ hsized.encoding []
  simp only [append_nil] at hend
  have hmagic : ∀ data rest, read data 4 (formatMagic ++ rest) =
      .ok (formatMagic.take 4, 1 :: rest) :=
    fun data rest => @read_append data 4 (formatMagic.take 4) (1 :: rest) rfl
  simp only [fromCanonicalBytes, append_assoc, hmagic, ok_bind, readUint_tag,
    UInt8.toNat_one, readChunking_write, readLayout_write hsized.layout, hend, hvalid, ne_eq,
    not_true_eq_false, if_false, pure_eq]

end TreeFormat

namespace Node

/-! ### Readers undo writers -/

variable {n : Nat} {bytes rest : Bytes} {row : Row} {previous : Option Bytes} (leaf : Bool)
  {layout : NodeLayoutSpec}

/-- The loop after `done` of its ten rounds. -/
theorem readVarintLoop_write {rounds done fuel : Nat} (hrounds : rounds + done = 10)
    (hn : n * 2 ^ (7 * done) < 2 ^ 64) (hfuel : n ≤ fuel) (hpos : 0 < rounds) (value : Nat)
    (rest : Bytes) :
    readVarintLoop rounds (7 * done) value (leb128Aux fuel n ++ rest)
      = .ok (value + n * 2 ^ (7 * done), rest) := by
  induction rounds generalizing done fuel n value with
  | zero => omega
  | succ rounds ih =>
    have hscale : 0 < 2 ^ (7 * done) := by positivity
    by_cases hsmall : n < 128
    · -- the last byte
      have hbytes : leb128Aux fuel n = [UInt8.ofNat n] := by
        cases fuel with
        | zero => rfl
        | succ fuel => simp [leb128Aux, hsmall]
      have hbyte : (UInt8.ofNat n).toNat = n := toNat_ofNat_of_lt (by omega)
      have hover : ¬ (7 * done = 63 ∧ n % 128 > 1) := by
        rintro ⟨hlast, hbig⟩
        rw [hlast] at hn
        omega
      rw [hbytes, singleton_append, readVarintLoop]
      simp only [hbyte]
      rw [if_neg hover, if_pos hsmall, Nat.mod_eq_of_lt hsmall]
    · obtain _ | fuel := fuel
      · omega
      have hbytes : leb128Aux (fuel + 1) n
          = UInt8.ofNat (n % 128 + 128) :: leb128Aux fuel (n / 128) := by
        simp [leb128Aux, hsmall]
      have hbyte : (UInt8.ofNat (n % 128 + 128)).toNat = n % 128 + 128 :=
        toNat_ofNat_of_lt (by omega)
      have hmore : done < 9 := by
        by_contra hge
        have hle : 2 ^ 63 ≤ 2 ^ (7 * done) := Nat.pow_le_pow_right (by omega) (by omega)
        have : 128 * 2 ^ 63 ≤ n * 2 ^ (7 * done) := Nat.mul_le_mul (by omega) hle
        omega
      have hpow : 2 ^ (7 * (done + 1)) = 128 * 2 ^ (7 * done) := by
        rw [Nat.mul_succ, Nat.pow_add, Nat.mul_comm]
      have hsplit : n % 128 * 2 ^ (7 * done) + n / 128 * 2 ^ (7 * (done + 1))
          = n * 2 ^ (7 * done) := by
        have h128 : n % 128 + 128 * (n / 128) = n := Nat.mod_add_div n 128
        calc n % 128 * 2 ^ (7 * done) + n / 128 * 2 ^ (7 * (done + 1))
            = (n % 128 + 128 * (n / 128)) * 2 ^ (7 * done) := by rw [hpow]; ring
          _ = n * 2 ^ (7 * done) := by rw [h128]
      rw [hbytes, cons_append, readVarintLoop]
      simp only [hbyte]
      rw [if_neg (by omega), if_neg (by omega), show 7 * done + 7 = 7 * (done + 1) by ring,
        ih (by omega) (by omega) (by omega) (by omega)]
      congr 2
      have hmod : (n % 128 + 128) % 128 = n % 128 := by omega
      rw [hmod, Nat.add_assoc, hsplit]

theorem readVarint_write (h : n < 2 ^ 64) (rest : Bytes) :
    readVarint (writeVarint n ++ rest) = .ok (n, rest) := by
  have hloop : readVarintLoop 10 (7 * 0) 0 (leb128Aux n n ++ rest)
      = .ok (0 + n * 2 ^ (7 * 0), rest) :=
    readVarintLoop_write rfl (by simpa using h) le_rfl (by decide) 0 rest
  simpa [readVarint, writeVarint, leb128] using hloop

theorem readBytes_append {len : Nat} (h : bytes.length = len) :
    readBytes data len (bytes ++ rest) = .ok (bytes, rest) := by
  subst h
  simp [readBytes]

theorem readBlock_write (h : bytes.length < 2 ^ 64) (rest : Bytes) :
    readBlock data (writeBlock bytes ++ rest) = .ok (bytes, rest) := by
  rw [readBlock, writeBlock, append_assoc, readVarint_write h, ok_bind]
  exact readBytes_append rfl

def Row.decoded (leaf : Bool) (row : Row) : DecodedRow :=
  ⟨row.key, row.val, if leaf then 0 else row.count⟩

/-- The fields of a row fit the 64 bits they are read into, and a child is not empty. -/
structure Row.Sized (leaf : Bool) (row : Row) : Prop where
  key : row.key.length < 2 ^ 64
  val : row.val.length < 2 ^ 64
  count : leaf = false → row.count < 2 ^ 64
  nonzero : leaf = false → row.count ≠ 0

theorem readChildCount_write {leaf : Bool} (h : row.Sized leaf) (rest : Bytes) :
    readChildCount leaf (writeCount leaf row.count ++ rest)
      = .ok (if leaf then 0 else row.count, rest) := by
  cases leaf with
  | true => rfl
  | false =>
    rw [readChildCount, writeCount, if_neg (by simp), if_neg (by simp),
      readVarint_write (h.count rfl), ok_bind]
    simp [h.nonzero rfl]

/-! ### The three layouts -/

theorem commonPrefixLen_le (a b : Bytes) :
    commonPrefixLen a b ≤ b.length ∧ commonPrefixLen a b ≤ a.length := by
  induction a generalizing b with
  | nil => simp [commonPrefixLen]
  | cons x a ih =>
    cases b with
    | nil => simp [commonPrefixLen]
    | cons y b =>
      have := ih b
      by_cases h : x = y
      · simp only [commonPrefixLen, h, if_true, length_cons]
        omega
      · simp [commonPrefixLen, h]

/-- The keys increase, also from the one before the rows. -/
def Ascending (previous : Option Bytes) (rows : List Row) : Prop :=
  (previous.toList ++ rows.map Row.key).Pairwise (· < ·)

theorem Ascending.checkOrder {rows : List Row} (h : Ascending previous (row :: rows)) :
    checkOrder previous row.key = .ok () := by
  cases previous with
  | none => rfl
  | some p =>
    have hlt : p < row.key := (pairwise_cons.mp h).1 _ (by simp)
    simp [Node.checkOrder, not_le.mpr hlt]

theorem Ascending.tail {previous : Option Bytes} {row : Row} {rows : List Row}
    (h : Ascending previous (row :: rows)) : Ascending (some row.key) rows := by
  cases previous with
  | none => exact h
  | some p => exact (pairwise_cons.mp h).2

theorem decodePrefixCompressed_write (rest : Bytes) (rows : List Row) (previous : Option Bytes)
    (hsized : ∀ row ∈ rows, row.Sized leaf) (hasc : Ascending previous rows) :
    decodePrefixCompressed data leaf rows.length previous
        (encodePrefixCompressed leaf (previous.getD []) rows ++ rest)
      = .ok (rows.map (Row.decoded leaf), rest) := by
  induction rows generalizing previous with
  | nil => rfl
  | cons row rows ih =>
    have hrow := hsized row mem_cons_self
    have hshared : commonPrefixLen (previous.getD []) row.key ≤ row.key.length ∧
        commonPrefixLen (previous.getD []) row.key ≤ (previous.getD []).length :=
      commonPrefixLen_le _ _
    have hkey : (previous.getD []).take (commonPrefixLen (previous.getD []) row.key)
        ++ row.key.drop (commonPrefixLen (previous.getD []) row.key) = row.key := by
      rw [← take_commonPrefixLen, take_append_drop]
    simp only [encodePrefixCompressed, append_assoc, length_cons, decodePrefixCompressed]
    rw [readVarint_write (by have := hrow.key; omega), ok_bind]
    dsimp only
    rw [if_neg (not_lt.mpr hshared.2),
      readBlock_write (by have := hrow.key; rw [length_drop]; omega), ok_bind]
    dsimp only
    rw [hkey, hasc.checkOrder, ok_bind, readBlock_write hrow.val, ok_bind]
    dsimp only
    rw [readChildCount_write hrow, ok_bind]
    dsimp only
    have htail := ih (some row.key) (fun r hr => hsized r (.tail _ hr)) hasc.tail
    rw [Option.getD_some] at htail
    rw [htail]
    rfl

theorem decodePlain_write (rest : Bytes) (rows : List Row) (previous : Option Bytes)
    (hsized : ∀ row ∈ rows, row.Sized leaf) (hasc : Ascending previous rows) :
    decodePlain data leaf rows.length previous (encodePlain leaf rows ++ rest)
      = .ok (rows.map (Row.decoded leaf), rest) := by
  induction rows generalizing previous with
  | nil => rfl
  | cons row rows ih =>
    have hrow := hsized row mem_cons_self
    simp only [encodePlain, append_assoc, length_cons, decodePlain]
    rw [readBlock_write hrow.key, ok_bind]
    dsimp only
    rw [hasc.checkOrder, ok_bind, readBlock_write hrow.val, ok_bind]
    dsimp only
    rw [readChildCount_write hrow, ok_bind]
    dsimp only
    rw [ih (some row.key) (fun r hr => hsized r (.tail _ hr)) hasc.tail]
    rfl

/-- The table of rows whose payload starts at an offset. -/
def offsetRows (leaf : Bool) : Nat → List Row → List OffsetRow
  | _, [] => []
  | offset, row :: rows =>
    ⟨offset, row.key.length, offset + row.key.length, row.val.length, if leaf then 0 else row.count⟩
      :: offsetRows leaf (offset + row.key.length + row.val.length) rows

def payloadOf (rows : List Row) : Bytes := rows.flatMap fun row => row.key ++ row.val

theorem decodeOffsets_write (rest : Bytes) (rows : List Row) (payload : Bytes)
    (hsized : ∀ row ∈ rows, row.Sized leaf)
    (hpayload : (payload ++ payloadOf rows).length < 2 ^ 64) :
    decodeOffsets leaf rows.length ((encodeOffsetTable leaf payload rows).1 ++ rest)
      = .ok (offsetRows leaf payload.length rows, rest) := by
  induction rows generalizing payload with
  | nil => rfl
  | cons row rows ih =>
    have hrow := hsized row mem_cons_self
    simp only [payloadOf, flatMap_cons, length_append] at hpayload
    simp only [encodeOffsetTable, append_assoc, length_cons, decodeOffsets]
    rw [readVarint_write (by omega), ok_bind]
    dsimp only
    rw [readVarint_write hrow.key, ok_bind]
    dsimp only
    rw [readVarint_write (by rw [length_append]; omega), ok_bind]
    dsimp only
    rw [readVarint_write hrow.val, ok_bind]
    dsimp only
    rw [readChildCount_write hrow, ok_bind]
    dsimp only
    have htail := ih (payload ++ (row.key ++ row.val))
      (fun r hr => hsized r (.tail _ hr))
      (by simp only [length_append, payloadOf]; omega)
    rw [htail]
    simp [offsetRows, length_append, Nat.add_assoc]

theorem slicePayload_append (before slice after : Bytes) (field : String)
    (h : before.length + slice.length < 2 ^ 64) :
    slicePayload (before ++ slice ++ after) before.length slice.length field = .ok slice := by
  rw [slicePayload, if_neg (not_le.mpr h), if_pos (by simp), append_assoc, drop_left, take_left]

theorem resolveOffsets_write (rows : List Row) (before : Bytes) (previous : Option Bytes)
    (hpayload : (before ++ payloadOf rows).length < 2 ^ 64) (hasc : Ascending previous rows) :
    resolveOffsets (before ++ payloadOf rows) previous (offsetRows leaf before.length rows)
      = .ok (rows.map (Row.decoded leaf)) := by
  induction rows generalizing before previous with
  | nil => rfl
  | cons row rows ih =>
    simp only [payloadOf, flatMap_cons, length_append] at hpayload
    have hwhole : before ++ payloadOf (row :: rows)
        = before ++ row.key ++ (row.val ++ payloadOf rows) := by
      simp [payloadOf]
    have hwhole' : before ++ payloadOf (row :: rows)
        = before ++ row.key ++ row.val ++ payloadOf rows := by
      simp [payloadOf]
    have hkey := slicePayload_append before row.key (row.val ++ payloadOf rows) "key" (by omega)
    have hval := slicePayload_append (before ++ row.key) row.val (payloadOf rows) "value"
      (by rw [length_append]; omega)
    rw [← hwhole] at hkey
    rw [← hwhole', length_append] at hval
    have htail := ih (before ++ row.key ++ row.val) (some row.key)
      (by simp only [length_append, payloadOf]; omega) hasc.tail
    rw [← hwhole', length_append, length_append] at htail
    rw [offsetRows, resolveOffsets]
    dsimp only
    rw [hkey, ok_bind, hasc.checkOrder, ok_bind, hval, ok_bind, htail]
    rfl

/-- The entries of a node in any built-in layout are read back. -/
theorem decodeRows_encodeRows {leaf : Bool} {rows : List Row} {body : Bytes}
    (hsized : ∀ row ∈ rows, row.Sized leaf) (hpayload : (payloadOf rows).length < 2 ^ 64)
    (hasc : Ascending none rows) (h : encodeRows layout leaf rows = .ok body) :
    decodeRows data layout leaf rows.length body = .ok (rows.map (Row.decoded leaf), []) := by
  cases layout with
  | prefixCompressed =>
    obtain rfl := Except.ok.inj h
    simpa [decodeRows] using decodePrefixCompressed_write leaf [] rows none hsized hasc
  | plain =>
    obtain rfl := Except.ok.inj h
    simpa [decodeRows] using decodePlain_write leaf [] rows none hsized hasc
  | offsetTable =>
    obtain rfl := Except.ok.inj h
    have hpay : (encodeOffsetTable leaf [] rows).2 = payloadOf rows := by
      rw [encodeOffsetTable_payload, nil_append, payloadOf]
    have hblock := @readBlock_write _ data hpayload []
    rw [append_nil] at hblock
    rw [decodeRows, hpay, decodeOffsets_write leaf _ rows [] hsized (by simpa using hpayload),
      ok_bind]
    dsimp only
    rw [hblock, ok_bind]
    dsimp only
    rw [show payloadOf rows = [] ++ payloadOf rows from rfl,
      resolveOffsets_write leaf rows [] none (by simpa using hpayload) hasc]
    rfl
  | custom id parameters => cases h

/-! ### Valid nodes -/

/-- What `Node::validate` checks. -/
structure Valid (n : Node) : Prop where
  format : n.format.validate = .ok ()
  vals_length : n.vals.length = n.keys.length
  sorted : n.keys.Pairwise (· < ·)
  leaf_counts : n.leaf = true → n.childCounts = []
  nonempty : n.leaf = false → n.keys ≠ []
  counts_length : n.leaf = false → n.childCounts.length = n.keys.length
  counts_pos : n.leaf = false → 0 ∉ n.childCounts

theorem validate_eq_ok {n : Node} : n.validate = .ok () ↔ n.Valid := by
  rw [validate, bind_eq_ok]
  constructor
  · rintro ⟨_, hformat, h⟩
    split at h
    · cases h
    next hkeys =>
    push Not at hkeys
    have hsorted : n.keys.Pairwise (· < ·) := isChain_iff_pairwise.mp hkeys.2
    split at h
    · next hleaf =>
      split at h
      · cases h
      next hcounts =>
      exact ⟨hformat, hkeys.1.symm, hsorted, fun _ => not_not.mp hcounts, by simp [hleaf],
        by simp [hleaf], by simp [hleaf]⟩
    · next hleaf =>
      split at h
      · cases h
      next hcounts =>
      push Not at hcounts
      exact ⟨hformat, hkeys.1.symm, hsorted, fun h => absurd h hleaf, fun _ => hcounts.1,
        fun _ => hcounts.2.1, fun _ => hcounts.2.2⟩
  · intro h
    refine ⟨(), h.format, ?_⟩
    rw [if_neg (by
      push Not
      exact ⟨h.vals_length.symm, isChain_iff_pairwise.mpr h.sorted⟩)]
    cases hleaf : n.leaf with
    | true => rw [if_pos rfl, if_neg (not_not.mpr (h.leaf_counts hleaf))]
    | false =>
      rw [if_neg (by simp), if_neg (by
        push Not
        exact ⟨h.nonempty hleaf, h.counts_length hleaf, h.counts_pos hleaf⟩)]

/-- The numbers of a node fit the machine integers that hold them: the level a `u8`,
the counts a `u64`, the total of all lengths an address space. -/
structure Sized (n : Node) : Prop where
  level : n.level < 256
  counts : ∀ c ∈ n.childCounts, c < 2 ^ 64
  len : n.keys.length < 2 ^ 64
  total : (n.keys.flatten ++ n.vals.flatten).length < 2 ^ 64
  format : ∀ bytes, formatBytes n.format = .ok bytes → bytes.length < 2 ^ 64

theorem rows_fields {ks vs : List Bytes} (cs : List Nat) (h : vs.length = ks.length) :
    (rows ks vs cs).map Row.key = ks ∧ (rows ks vs cs).map Row.val = vs ∧
      (cs.length = ks.length → (rows ks vs cs).map Row.count = cs) := by
  induction ks generalizing vs cs with
  | nil =>
    obtain rfl := length_eq_zero_iff.mp h
    exact ⟨rfl, rfl, fun hc => (length_eq_zero_iff.mp hc).symm⟩
  | cons k ks ih =>
    cases vs with
    | nil => cases h
    | cons v vs =>
      obtain ⟨hk, hv, hc⟩ := @ih vs cs.tail (Nat.succ.inj h)
      refine ⟨by rw [rows, map_cons, hk], by rw [rows, map_cons, hv], fun hlen => ?_⟩
      cases cs with
      | nil => cases hlen
      | cons c cs => rw [rows, map_cons, hc (Nat.succ.inj hlen)]; rfl

theorem length_payloadOf (rows : List Row) :
    (payloadOf rows).length
      = ((rows.map Row.key).flatten ++ (rows.map Row.val).flatten).length := by
  induction rows with
  | nil => rfl
  | cons row rows ih =>
    simp only [payloadOf, flatMap_cons, length_append, map_cons, flatten_cons] at ih ⊢
    omega

theorem length_le_flatten {xs : List Bytes} {x : Bytes} (h : x ∈ xs) :
    x.length ≤ xs.flatten.length := by
  rw [length_flatten]
  exact single_le_sum (by simp) _ (mem_map_of_mem h)

variable {n : Node} {cursor data : Bytes} {count : Nat} {offsets : List OffsetRow}

theorem Sized.rows (h : n.Sized) (hvalid : n.Valid) :
    ∀ row ∈ rows n.keys n.vals n.childCounts, row.Sized n.leaf := by
  obtain ⟨hkeys, hvals, hcounts⟩ := rows_fields n.childCounts hvalid.vals_length
  have htotal := h.total
  rw [length_append] at htotal
  intro row hrow
  have hcount : n.leaf = false → row.count ∈ n.childCounts := fun hleaf => by
    have := mem_map_of_mem (f := Row.count) hrow
    rwa [hcounts (hvalid.counts_length hleaf)] at this
  have hkey := length_le_flatten (hkeys ▸ mem_map_of_mem (f := Row.key) hrow)
  have hval := length_le_flatten (hvals ▸ mem_map_of_mem (f := Row.val) hrow)
  exact ⟨by omega, by omega, fun hleaf => h.counts _ (hcount hleaf),
    fun hleaf hzero => hvalid.counts_pos hleaf (hzero ▸ hcount hleaf)⟩

theorem nodeOf_rows (hvalid : n.Valid) :
    nodeOf n.format n.leaf n.level
      ((rows n.keys n.vals n.childCounts).map (Row.decoded n.leaf)) = n := by
  obtain ⟨hkeys, hvals, hcounts⟩ := rows_fields n.childCounts hvalid.vals_length
  have hkeys' : ((rows n.keys n.vals n.childCounts).map (Row.decoded n.leaf)).map DecodedRow.key
      = n.keys := by
    rw [map_map]
    exact hkeys
  have hvals' : ((rows n.keys n.vals n.childCounts).map (Row.decoded n.leaf)).map DecodedRow.val
      = n.vals := by
    rw [map_map]
    exact hvals
  have hcounts' : (if n.leaf then [] else ((rows n.keys n.vals n.childCounts).map
      (Row.decoded n.leaf)).map DecodedRow.childCount) = n.childCounts := by
    cases hleaf : n.leaf with
    | true => exact (hvalid.leaf_counts hleaf).symm
    | false =>
      rw [if_neg (by simp), map_map]
      exact hcounts (hvalid.counts_length hleaf)
  rw [nodeOf, hkeys', hvals', hcounts']

theorem readFormat_write {format : TreeFormat} {fb : Bytes} (hvalid : format.validate = .ok ())
    (hlayout : format.nodeLayout.BuiltIn) (hfb : formatBytes format = .ok fb)
    (hlen : fb.length < 2 ^ 64) (rest : Bytes) :
    readFormat data (writeBlock fb ++ rest) = .ok (format, rest) := by
  have hname : ∀ name, format.valueEncoding = .custom name → (strBytes name).length < 2 ^ 64 := by
    intro name hcustom
    rw [formatBytes] at hfb
    split at hfb
    · next hdefault => rw [hdefault] at hcustom; cases hcustom
    · obtain ⟨_, -, hfb⟩ := of_bind hfb
      obtain rfl := Except.ok.inj hfb
      rw [hcustom, encodeValueEncoding, encodeBytes] at hlen
      simp only [length_append, length_cons] at hlen
      omega
  have hformat : formatOf fb = .ok format := by
    rw [formatBytes] at hfb
    split at hfb
    · next hdefault =>
      obtain rfl := Except.ok.inj hfb
      rw [formatOf, if_pos rfl, hdefault]
    · have hne : fb ≠ [] := fun h => canonicalBytes_ne_nil (h ▸ hfb)
      rw [formatOf, if_neg hne]
      exact TreeFormat.fromCanonicalBytes_canonicalBytes
        ⟨fun id parameters hcustom => by simp [hcustom, NodeLayoutSpec.BuiltIn] at hlayout,
          hname⟩ hfb
  simp only [readFormat, readBlock_write hlen, ok_bind, hformat, hvalid, pure_eq]

theorem readLeafFlag_write (rest : Bytes) :
    readLeafFlag (writeVarint (if leaf then 1 else 0) ++ rest) = .ok (leaf, rest) := by
  cases leaf <;> rfl

/-- A valid node is read back from its bytes. -/
theorem fromBytes_tryToBytes (hvalid : n.Valid) (hsized : n.Sized) (h : n.tryToBytes = .ok bytes) :
    fromBytes bytes = .ok n := by
  obtain ⟨fb, body, hfb, hbody, rfl⟩ := tryToBytes_eq_ok.mp h
  have hlayout := builtIn_of_encodeRows hbody
  obtain ⟨hkeys, hvals, -⟩ := rows_fields n.childCounts hvalid.vals_length
  have hrows : (rows n.keys n.vals n.childCounts).length = n.keys.length :=
    rows_length hvalid.vals_length
  have hpayload : (payloadOf (rows n.keys n.vals n.childCounts)).length < 2 ^ 64 := by
    rw [length_payloadOf, hkeys, hvals]
    exact hsized.total
  have hasc : Ascending none (rows n.keys n.vals n.childCounts) := by
    rw [Ascending, hkeys]
    exact hvalid.sorted
  have hdecode := fun data => @decodeRows_encodeRows _ data _ _ _ (hsized.rows hvalid) hpayload
    hasc hbody
  rw [hrows] at hdecode
  have hmagic : ∀ rest : Bytes, (compactMagic ++ rest).take 4 = compactMagic ∧
      (compactMagic ++ rest).drop 4 = rest := fun rest => ⟨rfl, rfl⟩
  have hversion := fun rest => readVarint_write (n := compactVersion) (by decide) rest
  have hlevel := fun rest => readVarint_write (n := n.level) (by have := hsized.level; omega) rest
  have hempty : (!n.leaf && decide (n.keys.length = 0)) = false := by
    cases hleaf : n.leaf with
    | true => rfl
    | false => simpa using hvalid.nonempty hleaf
  simp only [fromBytes, append_assoc, (hmagic _).1, (hmagic _).2, ne_eq, not_true_eq_false,
    if_false, hversion, ok_bind, readFormat_write hvalid.format hlayout hfb
      (hsized.format fb hfb), readLeafFlag_write, readU8Varint, hlevel, hsized.level, if_true,
    readVarint_write hsized.len, hempty, Bool.false_eq_true, hdecode, pure_eq, nodeOf_rows hvalid]

/-! ### The computed length -/

/-- `varint_len` of an optional child count. -/
def countLen (leaf : Bool) (count : Nat) : Nat := if leaf then 0 else varintLen count

/-- The loop of `try_encoded_len` over the prefix-compressed layout. -/
def prefixCompressedLen (leaf : Bool) : Bytes → List Row → Nat → Nat
  | _, [], len => len
  | previousKey, row :: rest, len =>
    let shared := commonPrefixLen previousKey row.key
    let suffixLen := row.key.length - shared
    prefixCompressedLen leaf row.key rest
      (len + (varintLen shared + varintLen suffixLen + suffixLen + varintLen row.val.length
        + row.val.length) + countLen leaf row.count)

/-- The loop over the plain layout. -/
def plainLen (leaf : Bool) : List Row → Nat → Nat
  | [], len => len
  | row :: rest, len =>
    plainLen leaf rest
      (len + (varintLen row.key.length + row.key.length + varintLen row.val.length
        + row.val.length) + countLen leaf row.count)

/-- The loop over the offset table: the payload's length is kept beside the total. -/
def offsetTableLen (leaf : Bool) : Nat → List Row → Nat → Nat
  | payloadLen, [], len => len + (varintLen payloadLen + payloadLen)
  | payloadLen, row :: rest, len =>
    offsetTableLen leaf (saturatingAdd (saturatingAdd payloadLen row.key.length) row.val.length)
      rest
      (len + (varintLen payloadLen + varintLen row.key.length
        + varintLen (payloadLen + row.key.length) + varintLen row.val.length)
        + countLen leaf row.count)

/-- `Node::try_encoded_len`. -/
def tryEncodedLen (n : Node) : Result Nat := do
  let formatBytes ← formatBytes n.format
  let len := compactMagic.length + varintLen compactVersion + varintLen formatBytes.length
    + formatBytes.length + varintLen (if n.leaf then 1 else 0) + varintLen n.level
    + varintLen n.keys.length
  let rows := rows n.keys n.vals n.childCounts
  match n.format.nodeLayout with
  | .prefixCompressed => return prefixCompressedLen n.leaf [] rows len
  | .plain => return plainLen n.leaf rows len
  | .offsetTable => return offsetTableLen n.leaf 0 rows len
  | .custom id _ => .error (noCodec id)

theorem length_writeVarint (value : Nat) : (writeVarint value).length = varintLen value := by
  have haux : ∀ fuel value, (leb128Aux fuel value).length = varintLenAux fuel value := by
    intro fuel
    induction fuel with
    | zero => intro value; rfl
    | succ fuel ih =>
      intro value
      rw [leb128Aux, varintLenAux]
      split
      · rfl
      · rw [length_cons, ih]
  exact haux value value

theorem length_writeCount (count : Nat) : (writeCount leaf count).length = countLen leaf count := by
  cases leaf with
  | true => rfl
  | false => exact length_writeVarint count

theorem length_writeBlock (bytes : Bytes) :
    (writeBlock bytes).length = varintLen bytes.length + bytes.length := by
  rw [writeBlock, length_append, length_writeVarint]

theorem prefixCompressedLen_eq (rows : List Row) (previous : Bytes) (len : Nat) :
    prefixCompressedLen leaf previous rows len
      = len + (encodePrefixCompressed leaf previous rows).length := by
  induction rows generalizing previous len with
  | nil => rfl
  | cons row rows ih =>
    simp only [prefixCompressedLen, ih, encodePrefixCompressed, length_append,
      length_writeVarint, length_writeBlock, length_writeCount, length_drop]
    omega

theorem plainLen_eq (rows : List Row) (len : Nat) :
    plainLen leaf rows len = len + (encodePlain leaf rows).length := by
  induction rows generalizing len with
  | nil => rfl
  | cons row rows ih =>
    simp only [plainLen, ih, encodePlain, length_append, length_writeBlock, length_writeCount]
    omega

theorem saturatingAdd_eq {a b : Nat} (h : a + b ≤ u64Max) : saturatingAdd a b = a + b :=
  Nat.min_eq_left h

theorem offsetTableLen_eq (rows : List Row) (payload : Bytes) (len : Nat)
    (hpayload : (payload ++ payloadOf rows).length ≤ u64Max) :
    offsetTableLen leaf payload.length rows len
      = len + (encodeOffsetTable leaf payload rows).1.length
        + (writeBlock (encodeOffsetTable leaf payload rows).2).length := by
  induction rows generalizing payload len with
  | nil => simp [offsetTableLen, encodeOffsetTable, length_writeBlock]
  | cons row rows ih =>
    simp only [payloadOf, flatMap_cons, length_append] at hpayload
    have hkey : saturatingAdd payload.length row.key.length
        = payload.length + row.key.length := saturatingAdd_eq (by omega)
    have hval : saturatingAdd (payload.length + row.key.length) row.val.length
        = (payload ++ row.key ++ row.val).length := by
      rw [saturatingAdd_eq (by omega), length_append, length_append]
    simp only [offsetTableLen, hkey, hval]
    rw [ih (payload ++ row.key ++ row.val) _
      (by simp only [length_append, payloadOf]; omega)]
    simp only [encodeOffsetTable, length_append, length_writeVarint, length_writeCount]
    omega

/-- `encoded_len` counts the bytes that are written. -/
theorem tryEncodedLen_eq (hvals : n.vals.length = n.keys.length)
    (htotal : (n.keys.flatten ++ n.vals.flatten).length < 2 ^ 64) (h : n.tryToBytes = .ok bytes) :
    n.tryEncodedLen = .ok bytes.length := by
  obtain ⟨fb, body, hfb, hbody, rfl⟩ := tryToBytes_eq_ok.mp h
  obtain ⟨hkeys, hvals', -⟩ := rows_fields n.childCounts hvals
  rw [tryEncodedLen, hfb, ok_bind]
  cases hlayout : n.format.nodeLayout with
  | prefixCompressed =>
    rw [hlayout] at hbody
    obtain rfl := Except.ok.inj hbody
    simp only [prefixCompressedLen_eq, pure_eq, length_append, length_writeVarint,
      length_writeBlock, Except.ok.injEq]
    omega
  | plain =>
    rw [hlayout] at hbody
    obtain rfl := Except.ok.inj hbody
    simp only [plainLen_eq, pure_eq, length_append, length_writeVarint,
      length_writeBlock, Except.ok.injEq]
    omega
  | offsetTable =>
    rw [hlayout] at hbody
    obtain rfl := Except.ok.inj hbody
    have hpayload : ([] ++ payloadOf (rows n.keys n.vals n.childCounts)).length ≤ u64Max := by
      rw [nil_append, length_payloadOf, hkeys, hvals', u64Max]
      omega
    have hlen := offsetTableLen_eq n.leaf (rows n.keys n.vals n.childCounts) []
    simp only [length_nil] at hlen
    simp only [hlen _ hpayload, pure_eq, length_append, length_writeVarint,
      length_writeBlock, Except.ok.injEq]
    omega
  | custom id parameters => rw [hlayout] at hbody; cases hbody

/-! ### What decodes is valid -/

theorem checkOrder_eq_ok {key : Bytes} :
    checkOrder previous key = .ok () ↔ ∀ p ∈ previous, p < key := by
  cases previous with
  | none => simp [checkOrder]
  | some p => simp [checkOrder]

/-- The entries a decoder returns: as many as announced, with increasing keys, and with
children that are not empty. -/
structure Decoded (leaf : Bool) (count : Nat) (previous : Option Bytes) (rows : List DecodedRow) :
    Prop where
  length : rows.length = count
  sorted : (previous.toList ++ rows.map DecodedRow.key).Pairwise (· < ·)
  counts : leaf = false → ∀ row ∈ rows, row.childCount ≠ 0

theorem Decoded.nil (previous : Option Bytes) : Decoded leaf 0 previous [] :=
  ⟨rfl, by cases previous <;> simp, by simp⟩

theorem Decoded.cons {leaf : Bool} {count : Nat} {previous : Option Bytes} {row : DecodedRow}
    {rows : List DecodedRow} (horder : checkOrder previous row.key = .ok ())
    (hcount : leaf = false → row.childCount ≠ 0) (h : Decoded leaf count (some row.key) rows) :
    Decoded leaf (count + 1) previous (row :: rows) := by
  refine ⟨by rw [length_cons, h.length], ?_, fun hleaf r hr => ?_⟩
  · have hsorted := h.sorted
    cases previous with
    | none => exact hsorted
    | some p =>
      have hp : p < row.key := checkOrder_eq_ok.mp horder p rfl
      refine pairwise_cons.mpr ⟨fun k hk => ?_, hsorted⟩
      rcases mem_cons.mp hk with rfl | hk
      · exact hp
      · exact hp.trans ((pairwise_cons.mp hsorted).1 k hk)
  · rcases mem_cons.mp hr with rfl | hr
    · exact hcount hleaf
    · exact h.counts hleaf r hr

theorem readChildCount_ne_zero {leaf : Bool} (h : readChildCount leaf cursor = .ok (count, rest))
    (hleaf : leaf = false) : count ≠ 0 := by
  subst hleaf
  rw [readChildCount, if_neg (by simp)] at h
  obtain ⟨⟨value, cursor'⟩, -, h⟩ := of_bind h
  dsimp only at h
  split at h
  · cases h
  · next hne =>
    cases h
    exact hne

theorem decodePrefixCompressed_decoded {leaf : Bool} {rows : List DecodedRow}
    (h : decodePrefixCompressed data leaf count previous cursor = .ok (rows, rest)) :
    Decoded leaf count previous rows := by
  induction count generalizing previous cursor rows with
  | zero =>
    cases h
    exact .nil leaf previous
  | succ count ih =>
    simp only [decodePrefixCompressed, bind_eq_ok] at h
    obtain ⟨⟨shared, cursor1⟩, -, h⟩ := h
    split at h
    · cases h
    simp only [bind_eq_ok, pure_eq, Except.ok.injEq, Prod.mk.injEq] at h
    obtain ⟨⟨suffix, cursor2⟩, -, _, horder, ⟨val, cursor3⟩, -, ⟨childCount, cursor4⟩, hcount,
      ⟨tail, cursor5⟩, htail, rfl, rfl⟩ := h
    exact .cons horder (readChildCount_ne_zero hcount) (ih htail)

theorem decodePlain_decoded {leaf : Bool} {rows : List DecodedRow}
    (h : decodePlain data leaf count previous cursor = .ok (rows, rest)) :
    Decoded leaf count previous rows := by
  induction count generalizing previous cursor rows with
  | zero =>
    cases h
    exact .nil leaf previous
  | succ count ih =>
    simp only [decodePlain, bind_eq_ok, pure_eq, Except.ok.injEq, Prod.mk.injEq] at h
    obtain ⟨⟨key, cursor1⟩, -, _, horder, ⟨val, cursor2⟩, -, ⟨childCount, cursor3⟩, hcount,
      ⟨tail, cursor4⟩, htail, rfl, rfl⟩ := h
    exact .cons horder (readChildCount_ne_zero hcount) (ih htail)

theorem decodeOffsets_counts {leaf : Bool}
    (h : decodeOffsets leaf count cursor = .ok (offsets, rest)) :
    offsets.length = count ∧ (leaf = false → ∀ row ∈ offsets, row.childCount ≠ 0) := by
  induction count generalizing cursor offsets with
  | zero =>
    cases h
    exact ⟨rfl, by simp⟩
  | succ count ih =>
    simp only [decodeOffsets, bind_eq_ok, pure_eq, Except.ok.injEq, Prod.mk.injEq] at h
    obtain ⟨⟨keyOffset, cursor1⟩, -, ⟨keyLen, cursor2⟩, -, ⟨valueOffset, cursor3⟩, -,
      ⟨valueLen, cursor4⟩, -, ⟨childCount, cursor5⟩, hcount, ⟨tail, cursor6⟩, htail, rfl, rfl⟩ := h
    obtain ⟨hlen, hcounts⟩ := ih htail
    refine ⟨by rw [length_cons, hlen], fun hleaf row hrow => ?_⟩
    rcases mem_cons.mp hrow with rfl | hrow
    · exact readChildCount_ne_zero hcount hleaf
    · exact hcounts hleaf row hrow

theorem resolveOffsets_decoded {leaf : Bool} {payload : Bytes} {rows : List DecodedRow}
    (hcounts : leaf = false → ∀ row ∈ offsets, row.childCount ≠ 0)
    (h : resolveOffsets payload previous offsets = .ok rows) :
    Decoded leaf offsets.length previous rows := by
  induction offsets generalizing previous rows with
  | nil =>
    cases h
    exact .nil leaf previous
  | cons offset offsets ih =>
    simp only [resolveOffsets, bind_eq_ok, pure_eq, Except.ok.injEq] at h
    obtain ⟨key, -, _, horder, val, -, tail, htail, rfl⟩ := h
    exact .cons horder (fun hleaf => hcounts hleaf _ mem_cons_self)
      (ih (fun hleaf row hrow => hcounts hleaf row (.tail _ hrow)) htail)

theorem decodeRows_decoded {leaf : Bool} {rows : List DecodedRow}
    (h : decodeRows data layout leaf count cursor = .ok (rows, rest)) :
    Decoded leaf count none rows := by
  cases layout with
  | prefixCompressed => exact decodePrefixCompressed_decoded h
  | plain => exact decodePlain_decoded h
  | offsetTable =>
    simp only [decodeRows, bind_eq_ok, pure_eq, Except.ok.injEq, Prod.mk.injEq] at h
    obtain ⟨⟨offsets, cursor1⟩, hoffsets, ⟨payload, cursor2⟩, -, rows', hrows, rfl, -⟩ := h
    obtain ⟨hlen, hcounts⟩ := decodeOffsets_counts hoffsets
    have := resolveOffsets_decoded hcounts hrows
    rwa [hlen] at this
  | custom id parameters => cases h

/-- What `from_bytes` read, step by step. -/
theorem fromBytes_eq_ok :
    fromBytes data = .ok n ↔ data.take 4 = compactMagic ∧
      ∃ format leaf level count rows, ∃ c1 c2 c3 c4 c5 : Bytes,
        readVarint (data.drop 4) = .ok (compactVersion, c1) ∧ readFormat data c1 =
          .ok (format, c2) ∧
        readLeafFlag c2 = .ok (leaf, c3) ∧ readU8Varint "level" c3 = .ok (level, c4) ∧
        readVarint c4 = .ok (count, c5) ∧ (leaf = false → count ≠ 0) ∧
        decodeRows data format.nodeLayout leaf count c5 = .ok (rows, []) ∧
        n = nodeOf format leaf level rows := by
  rw [fromBytes]
  constructor
  · intro h
    split at h
    · cases h
    next hmagic =>
    simp only [bind_eq_ok] at h
    obtain ⟨⟨version, c1⟩, hversion, h⟩ := h
    split at h
    · cases h
    next hv =>
    simp only [bind_eq_ok] at h
    obtain ⟨⟨format, c2⟩, hformat, ⟨leaf, c3⟩, hleaf, ⟨level, c4⟩, hlevel, ⟨count, c5⟩, hcount,
      h⟩ := h
    split at h
    · cases h
    next hempty =>
    simp only [bind_eq_ok] at h
    obtain ⟨⟨rows, c6⟩, hrows, h⟩ := h
    split at h
    · cases h
    next hdone =>
    simp only [ne_eq, not_not] at hmagic hv hdone
    subst hdone hv
    refine ⟨hmagic, format, leaf, level, count, rows, c1, c2, c3, c4, c5, hversion, hformat, hleaf,
      hlevel, hcount, fun hl hc => hempty ?_, hrows, (Except.ok.inj h).symm⟩
    simp [hl, hc]
  · rintro ⟨hmagic, format, leaf, level, count, rows, c1, c2, c3, c4, c5, hversion, hformat, hleaf,
      hlevel, hcount, hempty, hrows, rfl⟩
    have hsome : (!leaf && decide (count = 0)) = false := by
      cases leaf with
      | true => rfl
      | false => simpa using hempty rfl
    simp only [hmagic, ne_eq, not_true_eq_false, if_false, hversion, ok_bind, hformat, hleaf,
      hlevel, hcount, hsome, Bool.false_eq_true, hrows, pure_eq]

theorem fromBytes_valid (h : fromBytes data = .ok n) : n.Valid := by
  have hshape := fromBytes_shape h
  obtain ⟨-, format, leaf, level, count, rows, c1, c2, c3, c4, c5, -, -, -, -, -, hempty, hrows,
    rfl⟩ := fromBytes_eq_ok.mp h
  have hdec := decodeRows_decoded hrows
  refine ⟨hshape.format, hshape.wellShaped.vals_length, hdec.sorted,
    hshape.wellShaped.leaf_counts, fun hleaf => ?_, hshape.wellShaped.internal_counts,
    fun hleaf hzero => ?_⟩
  · have hleaf' : leaf = false := hleaf
    intro hnil
    have : rows.length = 0 := by simpa [nodeOf] using hnil
    exact hempty hleaf' (hdec.length.symm.trans this)
  · have hleaf' : leaf = false := hleaf
    rw [nodeOf] at hzero
    dsimp only at hzero
    rw [if_neg (by simp [hleaf'])] at hzero
    obtain ⟨row, hrow, hrow0⟩ := mem_map.mp hzero
    exact hdec.counts hleaf' row hrow hrow0

/-! ### The codec -/

/-- Every valid node of a built-in layout is encoded, read back as it was, and its
computed length is the length of its bytes; and what decodes is valid. -/
theorem codec_exact :
    (∀ n : Node, n.validate = .ok () → n.format.nodeLayout.BuiltIn → n.Sized →
      ∃ bytes, n.tryToBytes = .ok bytes ∧ fromBytes bytes = .ok n ∧
        n.tryEncodedLen = .ok bytes.length) ∧
    (∀ (data : Bytes) (n : Node), fromBytes data = .ok n →
      n.validate = .ok () ∧ n.keys.Pairwise (· < ·) ∧ n.vals.length = n.keys.length ∧
        n.childCounts.length = if n.leaf then 0 else n.keys.length) := by
  constructor
  · intro n hvalid hlayout hsized
    have hvalid := validate_eq_ok.mp hvalid
    obtain ⟨bytes, hbytes⟩ := tryToBytes_ok hvalid.format hlayout
    exact ⟨bytes, hbytes, fromBytes_tryToBytes hvalid hsized hbytes,
      tryEncodedLen_eq hvalid.vals_length hsized.total hbytes⟩
  · intro data n h
    have hvalid := fromBytes_valid h
    refine ⟨validate_eq_ok.mpr hvalid, hvalid.sorted, hvalid.vals_length, ?_⟩
    cases hleaf : n.leaf with
    | true => rw [hvalid.leaf_counts hleaf]; rfl
    | false => exact hvalid.counts_length hleaf

/-- A leaf of the default format with two entries. -/
theorem codec_exact_leaf :
    ∃ bytes, Node.tryToBytes { keys := [[1], [1, 2]], vals := [[7], []] } = .ok bytes ∧
      fromBytes bytes = .ok { keys := [[1], [1, 2]], vals := [[7], []] } ∧
      Node.tryEncodedLen { keys := [[1], [1, 2]], vals := [[7], []] } = .ok bytes.length :=
  codec_exact.1 _ (by decide) (by decide)
    ⟨by decide, by decide, by decide, by decide, fun bytes h => by
      obtain rfl := Except.ok.inj h
      decide⟩

/-- An internal node whose only child value is empty decodes: child values are not
checked to be content identifiers. -/
theorem fromBytes_short_child :
    ∃ n : Node, fromBytes [67, 82, 65, 66, 2, 0, 0, 1, 1, 0, 0, 0, 1] = .ok n ∧
      n.leaf = false ∧ ∃ val ∈ n.vals, val.length ≠ 32 :=
  ⟨{ keys := [[]], vals := [[]], childCounts := [1], leaf := false, level := 1 }, by decide, rfl,
    [], by decide, by decide⟩

end Node

end Prolly

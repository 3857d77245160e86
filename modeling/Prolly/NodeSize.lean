import Prolly.Emitter

/-!
# Prolly.NodeSize

What one entry adds to the encoding of a node (`builder/size.rs`), and the upper bounds
the emitter and the parallel chunker use in place of exact sizes
(`conservative_empty_upper`, `conservative_entry_upper`, `max_upper_bytes`).
-/

namespace Prolly

/-! ### Varints -/

theorem varintLenAux_le_iff {fuel value k : Nat} (hfuel : value ≤ fuel) (hk : 0 < k) :
    varintLenAux fuel value ≤ k ↔ value < 128 ^ k := by
  induction fuel generalizing value k with
  | zero =>
    obtain rfl : value = 0 := by omega
    exact ⟨fun _ => Nat.pow_pos (by decide), fun _ => hk⟩
  | succ fuel ih =>
    unfold varintLenAux
    split
    · next hsmall =>
      refine ⟨fun _ => hsmall.trans_le ?_, fun _ => hk⟩
      exact Nat.le_self_pow hk.ne' 128
    · next hlarge =>
      match k, hk with
      | 1, _ =>
        have hpos : ¬ varintLenAux fuel (value / 128) ≤ 0 := by
          cases fuel <;> simp [varintLenAux]
          split <;> simp
        omega
      | k + 2, _ =>
        rw [Nat.add_le_add_iff_right, ih (by omega) (by omega),
          Nat.div_lt_iff_lt_mul (by omega), ← Nat.pow_succ]

theorem varintLen_le_iff {value k : Nat} (hk : 0 < k) : varintLen value ≤ k ↔ value < 128 ^ k :=
  varintLenAux_le_iff le_rfl hk

theorem varintLen_pos (value : Nat) : 0 < varintLen value := by
  unfold varintLen
  cases value <;> simp [varintLenAux]
  split <;> simp

theorem varintLen_le_ten {value : Nat} (h : value ≤ u64Max) : varintLen value ≤ 10 :=
  (varintLen_le_iff (by omega)).mpr (h.trans_lt (by decide))

/-- One more entry widens the entry count by at most a byte. -/
theorem varintLen_succ_le (value : Nat) : varintLen (value + 1) ≤ varintLen value + 1 := by
  have hvalue := (varintLen_le_iff (varintLen_pos value)).mp le_rfl
  refine (varintLen_le_iff (by omega)).mpr ?_
  rw [Nat.pow_succ]
  omega

theorem checkedU64_eq_ok {n m : Nat} : checkedU64 n = .ok m ↔ n = m ∧ n ≤ u64Max := by
  unfold checkedU64
  split
  · next h => simp [h]
  · next h => simp [h]

/-! ### Empty nodes -/

theorem length_encodeChunking (spec : ChunkingSpec) : (encodeChunking spec).length ≤ 49 := by
  have hrule : (encodeRule spec.rule).length ≤ 5 := by
    cases spec.rule <;> simp [encodeRule]
  simp [encodeChunking]
  omega

def Encoding.nameLength : Encoding → Nat
  | .custom name => (strBytes name).length
  | _ => 0

theorem conservativeEmptyUpper_eq (format : TreeFormat) :
    conservativeEmptyUpper format = 128 + format.valueEncoding.nameLength := by
  unfold conservativeEmptyUpper Encoding.nameLength
  split <;> simp_all

theorem length_encodeValueEncoding (encoding : Encoding) :
    (encodeValueEncoding encoding).length ≤ 9 + encoding.nameLength := by
  cases encoding with
  | custom name =>
    simp only [encodeValueEncoding, encodeBytes, Encoding.nameLength, List.length_cons,
      List.length_append, PrefixCode.bigEndian_length]
    omega
  | _ => exact Nat.succ_le_succ (Nat.zero_le _)

theorem length_formatBytes {format : TreeFormat} (hlayout : format.nodeLayout.BuiltIn)
    {bytes : Bytes} (h : Node.formatBytes format = .ok bytes) :
    bytes.length ≤ 64 + format.valueEncoding.nameLength := by
  unfold Node.formatBytes at h
  split at h
  · cases h
    exact Nat.zero_le _
  · obtain ⟨_, -, h⟩ := of_bind h
    cases h
    have hchunking := length_encodeChunking format.chunking
    have hencoding := length_encodeValueEncoding format.valueEncoding
    have hone : (encodeLayout format.nodeLayout).length = 1 := by
      revert hlayout
      cases format.nodeLayout <;> simp [encodeLayout, NodeLayoutSpec.BuiltIn]
    simp only [List.length_append, hone, formatMagic, List.length_cons, List.length_nil]
    omega

/-- The bytes of a valid format. -/
theorem Node.formatBytes_ok {format : TreeFormat} (hvalid : format.validate = .ok ()) :
    ∃ bytes, Node.formatBytes format = .ok bytes := by
  unfold Node.formatBytes TreeFormat.canonicalBytes
  rw [hvalid]
  split <;> exact ⟨_, rfl⟩

namespace EncodedNodeSizer

variable {s : EncodedNodeSizer} {format : TreeFormat} {leaf : Bool} {level : Nat}

/-- The sizer of a level with nothing in it. -/
structure Fresh (s : EncodedNodeSizer) (format : TreeFormat) (leaf : Bool) (level : Nat) :
    Prop where
  format_eq : s.format = format
  leaf_eq : s.leaf = leaf
  level_eq : s.level = level
  count : s.count = 0
  size : s.size = s.emptySize
  payloadLen : s.payloadLen = 0
  pos : 0 < s.emptySize
  upper : s.emptySize ≤ conservativeEmptyUpper format
  builtIn : format.nodeLayout.BuiltIn

/-- The size of an empty node, and its bound. -/
theorem new_eq {bytes : Bytes} (leaf : Bool) (hvalid : format.validate = .ok ())
    (hbuiltIn : format.nodeLayout.BuiltIn) (hbytes : Node.formatBytes format = .ok bytes)
    (hlevel : level ≤ u64Max) :
    ∃ empty, bytes.length < empty ∧
      (bytes.length ≤ u64Max → empty ≤ conservativeEmptyUpper format) ∧
      new format leaf level = (checkedU64 empty).map fun size =>
        { format, leaf, level, size, emptySize := size } := by
  have hformat := length_formatBytes hbuiltIn hbytes
  have hlevel := varintLen_le_ten hlevel
  have hleaf : varintLen (if leaf then 1 else 0) = 1 := by cases leaf <;> decide
  have htwo : varintLen 2 = 1 := by decide
  have hzero : varintLen 0 = 1 := by decide
  set tail := if format.nodeLayout = .offsetTable then varintLen 0 else 0 with htail
  have htail_le : tail ≤ 1 := by
    rw [htail]
    split <;> omega
  refine ⟨4 + varintLen 2 + varintLen bytes.length + bytes.length
    + varintLen (if leaf then 1 else 0) + varintLen level + varintLen 0 + tail, by omega, ?_, ?_⟩
  · intro hmax
    have hlen : varintLen bytes.length ≤ 10 := varintLen_le_ten hmax
    rw [conservativeEmptyUpper_eq]
    omega
  · rw [new, hvalid, ok_bind]
    split
    · next hcustom =>
        rw [hcustom] at hbuiltIn
        exact hbuiltIn.elim
    · rw [hbytes, ok_bind]
      show (checkedU64 _).bind _ = (checkedU64 _).map _
      cases checkedU64 (4 + varintLen 2 + varintLen bytes.length + bytes.length
        + varintLen (if leaf then 1 else 0) + varintLen level + varintLen 0 + tail) <;> rfl

/-- A sizer that has just been made. -/
theorem fresh_of_new (hbuiltIn : format.nodeLayout.BuiltIn) (hlevel : level ≤ u64Max)
    (h : new format leaf level = .ok s) : s.Fresh format leaf level := by
  obtain ⟨_, hvalid, -⟩ := of_bind h
  obtain ⟨bytes, hbytes⟩ := Node.formatBytes_ok hvalid
  obtain ⟨empty, hlt, hupper, hnew⟩ := new_eq leaf hvalid hbuiltIn hbytes hlevel
  rw [hnew] at h
  obtain ⟨size, hsize, rfl⟩ := map_eq_ok.mp h
  obtain ⟨rfl, hmax⟩ := checkedU64_eq_ok.mp hsize
  exact ⟨rfl, rfl, rfl, rfl, rfl, rfl, by dsimp only; omega, hupper (by omega), hbuiltIn⟩

/-- Where the bound of an empty node is a `u64`, there is a sizer. -/
theorem new_ok (leaf : Bool) (hvalid : format.validate = .ok ())
    (hbuiltIn : format.nodeLayout.BuiltIn)
    (hlevel : level ≤ u64Max) (hmax : conservativeEmptyUpper format ≤ u64Max) :
    ∃ s, new format leaf level = .ok s := by
  obtain ⟨bytes, hbytes⟩ := Node.formatBytes_ok hvalid
  have hformat := length_formatBytes hbuiltIn hbytes
  rw [conservativeEmptyUpper_eq] at hmax
  obtain ⟨empty, -, hupper, hnew⟩ := new_eq leaf hvalid hbuiltIn hbytes hlevel
  have hempty := hupper (by omega)
  rw [conservativeEmptyUpper_eq] at hempty
  rw [hnew, checkedU64_eq_ok.mpr ⟨rfl, by omega⟩]
  exact ⟨_, rfl⟩

/-! ### One more entry -/

/-- The payload of an offset table is part of the node. -/
def PayloadIn (s : EncodedNodeSizer) : Prop :=
  s.format.nodeLayout = .offsetTable → s.payloadLen ≤ s.size

theorem Fresh.payloadIn (h : s.Fresh format leaf level) : s.PayloadIn := by
  intro _
  rw [h.payloadLen]
  exact Nat.zero_le _

theorem commonPrefixLen_le (a b : Bytes) : Node.commonPrefixLen a b ≤ b.length := by
  induction a generalizing b with
  | nil => simp [Node.commonPrefixLen]
  | cons x a ih =>
    cases b with
    | nil => simp [Node.commonPrefixLen]
    | cons y b =>
      unfold Node.commonPrefixLen
      split
      · exact Nat.succ_le_succ (ih b)
      · exact Nat.zero_le _

/-- An entry grows a node, by at most 64 bytes more than its key and value. -/
theorem sizeAfter_ok (previousKey : Option Bytes) {key value : Bytes} {childCount : Option Nat}
    (hbuiltIn : s.format.nodeLayout.BuiltIn) (hpayload : s.PayloadIn)
    (hvalid : validateChildCount s.leaf childCount = .ok ())
    (hcount : ∀ n ∈ childCount, n ≤ u64Max)
    (hmax : s.size + (key.length + value.length + 64) ≤ u64Max) :
    ∃ size, s.sizeAfter previousKey key value childCount = .ok size ∧ s.size < size ∧
      size ≤ s.size + (key.length + value.length + 64) ∧
          (s.pushSized key value size).PayloadIn := by
  have hdelta : varintLen (s.count + 1) - varintLen s.count ≤ 1 := by
    have := varintLen_succ_le s.count
    omega
  have hwidth : (childCount.map varintLen).getD 0 ≤ 10 := by
    cases childCount with
    | none => exact Nat.zero_le _
    | some n => exact varintLen_le_ten (hcount n rfl)
  have hkey : varintLen key.length ≤ 10 := varintLen_le_ten (by omega)
  have hvalue : varintLen value.length ≤ 10 := varintLen_le_ten (by omega)
  unfold PayloadIn at hpayload
  rw [sizeAfter, hvalid, ok_bind]
  dsimp only
  split
  · next hlayout =>
    have hshared : (previousKey.map fun previous => Node.commonPrefixLen previous key).getD 0 ≤
        key.length := by
      cases previousKey with
      | none => exact Nat.zero_le _
      | some previous => exact commonPrefixLen_le previous key
    generalize (previousKey.map fun previous => Node.commonPrefixLen previous key).getD 0 = shared
      at hshared ⊢
    have h1 : varintLen shared ≤ 10 := varintLen_le_ten (by omega)
    have h2 : varintLen (key.length - shared) ≤ 10 := varintLen_le_ten (by omega)
    have hpos := varintLen_pos shared
    refine ⟨_, checkedU64_eq_ok.mpr ⟨rfl, by omega⟩, by omega, by omega, fun hoffset => ?_⟩
    exact absurd (hlayout.symm.trans hoffset) (by decide)
  · next hlayout =>
    have hpos := varintLen_pos key.length
    refine ⟨_, checkedU64_eq_ok.mpr ⟨rfl, by omega⟩, by omega, by omega, fun hoffset => ?_⟩
    exact absurd (hlayout.symm.trans hoffset) (by decide)
  · next hlayout =>
    have hin := hpayload hlayout
    have h1 : varintLen s.payloadLen ≤ 10 := varintLen_le_ten (by omega)
    have h2 : varintLen (s.payloadLen + key.length) ≤ 10 := varintLen_le_ten (by omega)
    have h3 : varintLen (s.payloadLen + key.length + value.length) ≤ 10 :=
      varintLen_le_ten (by omega)
    have hpos := varintLen_pos s.payloadLen
    refine ⟨_, checkedU64_eq_ok.mpr ⟨rfl, by omega⟩, by omega, by omega, fun _ => ?_⟩
    dsimp only [pushSized]
    omega
  · next hlayout =>
    rw [hlayout] at hbuiltIn
    exact hbuiltIn.elim

end EncodedNodeSizer

end Prolly

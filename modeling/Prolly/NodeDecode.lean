import Prolly.NodeCodec

/-!
# Prolly.NodeDecode

Decoding of untrusted node bytes (`Node::from_bytes`) and of the tree format
descriptors inside them. A cursor over bytes is the list of the bytes not read
yet, with `data` for all of them; a read returns its value and the bytes it leaves.
Varints are at most ten bytes and fit a `u64`, so `usize` conversions do not fail.

What decodes has the shape of a node: as many values as keys, child counts exactly
for internal nodes, a registered layout, and a format that validates
(`Node.fromBytes_shape`). So it can be encoded again, and its content identifier
exists.
-/

namespace Prolly

/-- How much of `data` a cursor has read. -/
def position (data cursor : Bytes) : Nat := data.length - cursor.length

/-! ### Format descriptors -/

namespace TreeFormat

variable (data : Bytes)

/-- `FormatCursor::read`. -/
def read (len : Nat) (cursor : Bytes) : Result (Bytes × Bytes) :=
  if len ≤ cursor.length then .ok (cursor.take len, cursor.drop len)
  else if position data cursor + len < 2 ^ 64 then .error (.invalidFormat "truncated tree format")
  else .error (.invalidFormat "tree format offset overflow")

/-- `from_be_bytes`. -/
def fromBeBytes (bytes : Bytes) : Nat := bytes.foldl (fun n b => 256 * n + b.toNat) 0

/-- `read_u8`, `read_u16`, `read_u32` and `read_u64`, by width. -/
def readUint (width : Nat) (cursor : Bytes) : Result (Nat × Bytes) := do
  let (bytes, cursor) ← read data width cursor
  return (fromBeBytes bytes, cursor)

variable (cursor : Bytes)

/-- `read_vec`. -/
def readVec : Result (Bytes × Bytes) := do
  let (len, cursor) ← readUint data 8 cursor
  read data len cursor

/-- `read_string`. -/
def readString : Result (String × Bytes) := do
  let (bytes, cursor) ← readVec data cursor
  match String.fromUTF8? ⟨bytes.toArray⟩ with
  | some text => return (text, cursor)
  | none => .error (.invalidFormat "tree format string is not UTF-8")

def readMeasure : Result (ChunkMeasure × Bytes) := do
  let (tag, cursor) ← readUint data 1 cursor
  match tag with
  | 0 => return (.entryCount, cursor)
  | 1 => return (.logicalBytes, cursor)
  | 2 => return (.encodedBytes, cursor)
  | _ => .error (.invalidFormat "invalid chunk measure")

def readInput : Result (BoundaryInput × Bytes) := do
  let (tag, cursor) ← readUint data 1 cursor
  match tag with
  | 0 => return (.key, cursor)
  | 1 => return (.keyValue, cursor)
  | _ => .error (.invalidFormat "invalid boundary input")

def readHash : Result (HashAlgorithm × Bytes) := do
  let (tag, cursor) ← readUint data 1 cursor
  match tag with
  | 0 => return (.xxHash64, cursor)
  | _ => .error (.invalidFormat "invalid hash algorithm")

def readRule : Result (BoundaryRule × Bytes) := do
  let (tag, cursor) ← readUint data 1 cursor
  match tag with
  | 0 => do
      let (factor, cursor) ← readUint data 4 cursor
      return (.hashThreshold (.ofNat factor), cursor)
  | 1 => do
      let (shape, cursor) ← readUint data 4 cursor
      return (.weibull (.ofNat shape), cursor)
  | 2 => do
      let (window, cursor) ← readUint data 2 cursor
      return (.rollingBuzHash (.ofNat window), cursor)
  | _ => .error (.invalidFormat "invalid boundary rule")

def readFlag : Result (Bool × Bytes) := do
  let (tag, cursor) ← readUint data 1 cursor
  match tag with
  | 0 => return (false, cursor)
  | 1 => return (true, cursor)
  | _ => .error (.invalidFormat "invalid level salt flag")

def readChunking : Result (ChunkingSpec × Bytes) := do
  let (measure, cursor) ← readMeasure data cursor
  let (input, cursor) ← readInput data cursor
  let (hash, cursor) ← readHash data cursor
  let (rule, cursor) ← readRule data cursor
  let (min, cursor) ← readUint data 8 cursor
  let (target, cursor) ← readUint data 8 cursor
  let (max, cursor) ← readUint data 8 cursor
  let (hashSeed, cursor) ← readUint data 8 cursor
  let (levelSalt, cursor) ← readFlag data cursor
  let (hardMaxNodeBytes, cursor) ← readUint data 8 cursor
  return (⟨measure, input, hash, rule, .ofNat min, .ofNat target, .ofNat max, .ofNat hashSeed,
    levelSalt, .ofNat hardMaxNodeBytes⟩, cursor)

def readLayout : Result (NodeLayoutSpec × Bytes) := do
  let (tag, cursor) ← readUint data 1 cursor
  match tag with
  | 0 => return (.prefixCompressed, cursor)
  | 1 => return (.plain, cursor)
  | 2 => return (.offsetTable, cursor)
  | 3 => do
      let (id, cursor) ← readString data cursor
      let (parameters, cursor) ← readVec data cursor
      return (.custom id parameters, cursor)
  | _ => .error (.invalidFormat "invalid node layout")

def readEncoding : Result (Encoding × Bytes) := do
  let (tag, cursor) ← readUint data 1 cursor
  match tag with
  | 0 => return (.raw, cursor)
  | 1 => return (.cbor, cursor)
  | 2 => return (.json, cursor)
  | 3 => do
      let (name, cursor) ← readString data cursor
      return (.custom name, cursor)
  | _ => .error (.invalidFormat "invalid value encoding")

/-- `TreeFormat::from_canonical_bytes`. -/
def fromCanonicalBytes : Result TreeFormat := do
  let (magic, cursor) ← read data 4 data
  if magic ≠ formatMagic.take 4 then .error (.invalidFormat "invalid tree format magic")
  else do
    let (version, cursor) ← readUint data 1 cursor
    if version ≠ 1 then .error (.invalidFormat "unsupported tree format version")
    else do
      let (chunking, cursor) ← readChunking data cursor
      let (nodeLayout, cursor) ← readLayout data cursor
      let (valueEncoding, cursor) ← readEncoding data cursor
      if cursor ≠ [] then .error (.invalidFormat "trailing tree format bytes")
      else do
        let format : TreeFormat := ⟨chunking, nodeLayout, valueEncoding⟩
        format.validate
        return format

end TreeFormat

/-! ### Nodes -/

namespace Node

def compactError (message : String) : Error := .deserialize ("compact node: " ++ message)

/-- The loop of `read_varint`: `rounds` iterations are left. -/
def readVarintLoop : Nat → Nat → Nat → Bytes → Result (Nat × Bytes)
  | 0, _, _, _ => .error (compactError "varint overflow")
  | _ + 1, _, _, [] => .error (compactError "unexpected end of bytes")
  | rounds + 1, shift, value, byte :: cursor =>
    let part := byte.toNat % 128
    if shift = 63 ∧ part > 1 then .error (compactError "varint overflow")
    else if byte.toNat < 128 then .ok (value + part * 2 ^ shift, cursor)
    else readVarintLoop rounds (shift + 7) (value + part * 2 ^ shift) cursor

/-- `read_varint` and `read_usize`. -/
def readVarint (cursor : Bytes) : Result (Nat × Bytes) := readVarintLoop 10 0 0 cursor

/-- `read_u8_varint`. -/
def readU8Varint (field : String) (cursor : Bytes) : Result (Nat × Bytes) := do
  let (value, cursor) ← readVarint cursor
  if value < 256 then return (value, cursor)
  else .error (compactError (field ++ " exceeds u8"))

section
variable (data : Bytes)

/-- `read_bytes`. -/
def readBytes (len : Nat) (cursor : Bytes) : Result (Bytes × Bytes) :=
  if len ≤ cursor.length then .ok (cursor.take len, cursor.drop len)
  else if position data cursor + len < 2 ^ 64 then .error (compactError "unexpected end of bytes")
  else .error (compactError "byte range overflow")

/-- A length-prefixed block. -/
def readBlock (cursor : Bytes) : Result (Bytes × Bytes) := do
  let (len, cursor) ← readVarint cursor
  readBytes data len cursor

/-- `read_compact_child_count`, which is not called for leaves. -/
def readChildCount (leaf : Bool) (cursor : Bytes) : Result (Nat × Bytes) :=
  if leaf then .ok (0, cursor)
  else do
    let (count, cursor) ← readVarint cursor
    if count = 0 then .error .invalidNode else return (count, cursor)

/-- A decoded entry; the child count of a leaf entry is not stored. -/
structure DecodedRow where
  key : Bytes
  val : Bytes
  childCount : Nat

/-- The keys of consecutive entries increase. -/
def checkOrder (previous : Option Bytes) (key : Bytes) : Result Unit :=
  match previous with
  | some previous => if previous ≥ key then .error .invalidNode else .ok ()
  | none => .ok ()

/-- The entries of the `PrefixCompressed` layout. -/
def decodePrefixCompressed (leaf : Bool) :
    Nat → Option Bytes → Bytes → Result (List DecodedRow × Bytes)
  | 0, _, cursor => .ok ([], cursor)
  | count + 1, previous, cursor => do
      let previousKey := previous.getD []
      let (shared, cursor) ← readVarint cursor
      if shared > previousKey.length then
        .error (compactError "shared key prefix exceeds previous key")
      else do
        let (suffix, cursor) ← readBlock data cursor
        let key := previousKey.take shared ++ suffix
        checkOrder previous key
        let (val, cursor) ← readBlock data cursor
        let (childCount, cursor) ← readChildCount leaf cursor
        let (rows, cursor) ← decodePrefixCompressed leaf count (some key) cursor
        return (⟨key, val, childCount⟩ :: rows, cursor)

/-- The entries of the `Plain` layout. -/
def decodePlain (leaf : Bool) : Nat → Option Bytes → Bytes → Result (List DecodedRow × Bytes)
  | 0, _, cursor => .ok ([], cursor)
  | count + 1, previous, cursor => do
      let (key, cursor) ← readBlock data cursor
      checkOrder previous key
      let (val, cursor) ← readBlock data cursor
      let (childCount, cursor) ← readChildCount leaf cursor
      let (rows, cursor) ← decodePlain leaf count (some key) cursor
      return (⟨key, val, childCount⟩ :: rows, cursor)

structure OffsetRow where
  keyOffset : Nat
  keyLen : Nat
  valueOffset : Nat
  valueLen : Nat
  childCount : Nat

def decodeOffsets (leaf : Bool) : Nat → Bytes → Result (List OffsetRow × Bytes)
  | 0, cursor => .ok ([], cursor)
  | count + 1, cursor => do
      let (keyOffset, cursor) ← readVarint cursor
      let (keyLen, cursor) ← readVarint cursor
      let (valueOffset, cursor) ← readVarint cursor
      let (valueLen, cursor) ← readVarint cursor
      let (childCount, cursor) ← readChildCount leaf cursor
      let (rows, cursor) ← decodeOffsets leaf count cursor
      return (⟨keyOffset, keyLen, valueOffset, valueLen, childCount⟩ :: rows, cursor)

/-- `slice_payload`. -/
def slicePayload (payload : Bytes) (offset len : Nat) (field : String) : Result Bytes :=
  if offset + len ≥ 2 ^ 64 then .error (compactError (field ++ " offset overflow"))
  else if offset + len ≤ payload.length then .ok ((payload.drop offset).take len)
  else .error (compactError (field ++ " offset outside payload"))

def resolveOffsets (payload : Bytes) : Option Bytes → List OffsetRow → Result (List DecodedRow)
  | _, [] => .ok []
  | previous, row :: rows => do
      let key ← slicePayload payload row.keyOffset row.keyLen "key"
      checkOrder previous key
      let val ← slicePayload payload row.valueOffset row.valueLen "value"
      let rest ← resolveOffsets payload (some key) rows
      return ⟨key, val, row.childCount⟩ :: rest

def decodeRows (layout : NodeLayoutSpec) (leaf : Bool) (count : Nat) (cursor : Bytes) :
    Result (List DecodedRow × Bytes) :=
  match layout with
  | .prefixCompressed => decodePrefixCompressed data leaf count none cursor
  | .plain => decodePlain data leaf count none cursor
  | .offsetTable => do
      let (offsets, cursor) ← decodeOffsets leaf count cursor
      let (payload, cursor) ← readBlock data cursor
      return (← resolveOffsets payload none offsets, cursor)
  | .custom id _ => .error (.invalidFormat ("node layout '" ++ id ++ "' has no registered codec"))

/-- The format of a descriptor; no bytes stand for the default. -/
def formatOf (bytes : Bytes) : Result TreeFormat :=
  if bytes = [] then .ok {} else TreeFormat.fromCanonicalBytes bytes

/-- The format a node carries. -/
def readFormat (cursor : Bytes) : Result (TreeFormat × Bytes) := do
  let (bytes, cursor) ← readBlock data cursor
  let format ← formatOf bytes
  format.validate
  return (format, cursor)

end

def readLeafFlag (cursor : Bytes) : Result (Bool × Bytes) := do
  let (flag, cursor) ← readVarint cursor
  match flag with
  | 0 => return (false, cursor)
  | 1 => return (true, cursor)
  | other => .error (compactError ("invalid leaf flag " ++ toString other))

def nodeOf (format : TreeFormat) (leaf : Bool) (level : Nat) (rows : List DecodedRow) : Node where
  keys := rows.map DecodedRow.key
  vals := rows.map DecodedRow.val
  childCounts := if leaf then [] else rows.map DecodedRow.childCount
  leaf := leaf
  level := level
  format := format

/-- `Node::from_bytes`. -/
def fromBytes (data : Bytes) : Result Node :=
  if data.take 4 ≠ compactMagic then .error (compactError "missing compact node magic")
  else do
    let (version, cursor) ← readVarint (data.drop 4)
    if version ≠ compactVersion then
      .error (compactError ("unsupported compact node version " ++ toString version))
    else do
      let (format, cursor) ← readFormat data cursor
      let (leaf, cursor) ← readLeafFlag cursor
      let (level, cursor) ← readU8Varint "level" cursor
      let (count, cursor) ← readVarint cursor
      if !leaf && count = 0 then .error .invalidNode
      else do
        let (rows, cursor) ← decodeRows data format.nodeLayout leaf count cursor
        if cursor ≠ [] then .error (compactError "trailing bytes in compact node")
        else return nodeOf format leaf level rows

/-! ### What decodes has the shape of a node -/

theorem readFormat_validate {cursor rest : Bytes} {format : TreeFormat}
    (h : readFormat data cursor = .ok (format, rest)) : format.validate = .ok () := by
  simp only [readFormat, bind_eq_ok, pure_eq, Except.ok.injEq, Prod.mk.injEq] at h
  obtain ⟨_, -, f, -, _, hvalid, rfl, -⟩ := h
  exact hvalid

theorem builtIn_of_decodeRows {layout : NodeLayoutSpec} {leaf : Bool} {count : Nat}
    {cursor : Bytes} {r : List DecodedRow × Bytes}
    (h : decodeRows data layout leaf count cursor = .ok r) : layout.BuiltIn := by
  cases layout with
  | custom id parameters => simp [decodeRows] at h
  | _ => trivial

/-- What `from_bytes` accepts. -/
structure Shape (n : Node) : Prop where
  wellShaped : n.WellShaped
  format : n.format.validate = .ok ()
  layout : n.format.nodeLayout.BuiltIn
  level : n.level < 256

theorem fromBytes_shape {data : Bytes} {n : Node} (h : fromBytes data = .ok n) : n.Shape := by
  rw [fromBytes] at h
  split at h
  · cases h
  simp only [bind_eq_ok] at h
  obtain ⟨⟨version, cursor⟩, -, h⟩ := h
  split at h
  · cases h
  simp only [bind_eq_ok] at h
  obtain ⟨⟨format, cursor1⟩, hformat, ⟨leaf, cursor2⟩, -, ⟨level, cursor3⟩, hlevel,
    ⟨count, cursor4⟩, -, h⟩ := h
  split at h
  · cases h
  simp only [bind_eq_ok] at h
  obtain ⟨⟨rows, cursor5⟩, hrows, h⟩ := h
  split at h
  · cases h
  obtain rfl := Except.ok.inj h
  refine ⟨⟨by simp [nodeOf], fun hleaf => ?_, fun hleaf => ?_⟩, readFormat_validate hformat,
    builtIn_of_decodeRows hrows, ?_⟩
  · exact if_pos hleaf
  · rw [nodeOf, if_neg (by simpa [nodeOf] using hleaf)]
    simp
  · simp only [readU8Varint, bind_eq_ok] at hlevel
    obtain ⟨⟨value, cursor⟩, -, hlevel⟩ := hlevel
    split at hlevel
    · next hlt =>
        simp only [pure_eq, Except.ok.injEq, Prod.mk.injEq] at hlevel
        exact hlevel.1 ▸ hlt
    · cases hlevel

/-- A node of that shape can be encoded. -/
theorem Shape.tryToBytes {n : Node} (h : n.Shape) : ∃ bytes, n.tryToBytes = .ok bytes :=
  tryToBytes_ok h.format h.layout

end Node

/-! ### Nodes read from a store -/

/-- `decode_owned`. -/
def decodeOwned (d : Digests) (format : TreeFormat) (cid : Cid) (bytes : Bytes) : Result Node :=
  if d.sha256 bytes ≠ cid then .error (.cidMismatch cid (d.sha256 bytes))
  else
    match Node.fromBytes bytes with
    | .error (.deserialize _) => .error .invalidNode
    | .error e => .error e
    | .ok node => if node.format ≠ format then .error .formatMismatch else .ok node

end Prolly

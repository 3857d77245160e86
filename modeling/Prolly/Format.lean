import Prolly.Basic
import Prolly.Lib.PrefixCode

/-!
# Prolly.Format

Persisted tree formats (`format.rs`, `encoding.rs`): chunking parameters, node
layout and value encoding, their validation, and the canonical descriptor bytes
that every non-default node carries.
-/

namespace Prolly

/-- Quantity used to enforce a chunk's soft size bounds. -/
inductive ChunkMeasure where
  | entryCount
  | logicalBytes
  | encodedBytes
  deriving DecidableEq, Repr

/-- Entry bytes supplied to the boundary hash. -/
inductive BoundaryInput where
  | key
  | keyValue
  deriving DecidableEq, Repr

/-- Stable hash algorithms available to persisted chunking policies. -/
inductive HashAlgorithm where
  | xxHash64
  deriving DecidableEq, Repr

/-- Rule used to select a content-defined boundary. -/
inductive BoundaryRule where
  | hashThreshold (factor : UInt32)
  | weibull (shape : UInt32)
  | rollingBuzHash (window : UInt16)
  deriving DecidableEq, Repr

/-- Persisted content-defined chunking configuration. -/
structure ChunkingSpec where
  measure : ChunkMeasure := .entryCount
  input : BoundaryInput := .key
  hash : HashAlgorithm := .xxHash64
  rule : BoundaryRule := .hashThreshold 128
  min : UInt64 := 4
  target : UInt64 := 128
  max : UInt64 := 1048576
  hashSeed : UInt64 := 0
  levelSalt : Bool := true
  hardMaxNodeBytes : UInt64 := 16777216
  deriving DecidableEq, Repr

/-- `ChunkingSpec::validate`. -/
def ChunkingSpec.validate (spec : ChunkingSpec) : Result Unit :=
  if spec.min = 0 ∨ spec.target < spec.min ∨ spec.max < spec.target then
    .error (.invalidFormat "chunk bounds must satisfy 0 < min <= target <= max")
  else if spec.hardMaxNodeBytes = 0 then
    .error (.invalidFormat "hard maximum node bytes must be nonzero")
  else
    match spec.rule with
    | .hashThreshold factor =>
      if factor = 0 then .error (.invalidFormat "hash threshold factor must be nonzero")
      else .ok ()
    | .weibull shape =>
      if shape = 1 ∨ shape = 2 then .ok ()
      else .error (.invalidFormat "Weibull shape must be 1 or 2")
    | .rollingBuzHash window =>
      if window = 0 then .error (.invalidFormat "rolling hash window must be nonzero")
      else .ok ()

/-- Physical encoding used for nodes in a tree. -/
inductive NodeLayoutSpec where
  | prefixCompressed
  | plain
  | offsetTable
  | custom (id : String) (parameters : Bytes)
  deriving DecidableEq, Repr

/-- A layout this crate has a codec for. -/
def NodeLayoutSpec.BuiltIn : NodeLayoutSpec → Prop
  | .custom _ _ => False
  | _ => True

instance : DecidablePred NodeLayoutSpec.BuiltIn := fun l => by
  cases l <;> (unfold NodeLayoutSpec.BuiltIn; infer_instance)

/-- Encoding type for values. -/
inductive Encoding where
  | raw
  | cbor
  | json
  | custom (name : String)
  deriving DecidableEq, Repr

/-- Persisted settings that determine tree shape and content IDs. -/
structure TreeFormat where
  chunking : ChunkingSpec := {}
  nodeLayout : NodeLayoutSpec := .prefixCompressed
  valueEncoding : Encoding := .raw
  deriving DecidableEq, Repr

/-- `TreeFormat::validate`. -/
def TreeFormat.validate (format : TreeFormat) : Result Unit := do
  format.chunking.validate
  match format.nodeLayout with
  | .custom id _ =>
    if id = "" then
      .error (.invalidFormat "custom node layout identifier cannot be empty")
    else .ok ()
  | _ => .ok ()

/-! ### Canonical descriptor bytes -/

/-- `to_be_bytes` of a `width`-byte integer. -/
abbrev beBytes (width value : Nat) : Bytes := PrefixCode.bigEndian width value

def encodeBytes (bytes : Bytes) : Bytes :=
  beBytes 8 bytes.length ++ bytes

/-- `str::as_bytes`: the UTF-8 bytes of a string. -/
def strBytes (text : String) : Bytes := text.toByteArray.data.toList

theorem strBytes_injective : Function.Injective strBytes := by
  intro a b h
  exact String.toByteArray_inj.mp (ByteArray.ext (Array.toList_inj.mp h))

def encodeMeasure : ChunkMeasure → UInt8
  | .entryCount => 0
  | .logicalBytes => 1
  | .encodedBytes => 2

def encodeInput : BoundaryInput → UInt8
  | .key => 0
  | .keyValue => 1

def encodeHash : HashAlgorithm → UInt8
  | .xxHash64 => 0

def encodeRule : BoundaryRule → Bytes
  | .hashThreshold factor => 0 :: beBytes 4 factor.toNat
  | .weibull shape => 1 :: beBytes 4 shape.toNat
  | .rollingBuzHash window => 2 :: beBytes 2 window.toNat

/-- `encode_chunking`. -/
def encodeChunking (spec : ChunkingSpec) : Bytes :=
  [encodeMeasure spec.measure, encodeInput spec.input, encodeHash spec.hash]
    ++ encodeRule spec.rule
    ++ beBytes 8 spec.min.toNat ++ beBytes 8 spec.target.toNat ++ beBytes 8 spec.max.toNat
    ++ beBytes 8 spec.hashSeed.toNat
    ++ [if spec.levelSalt then 1 else 0]
    ++ beBytes 8 spec.hardMaxNodeBytes.toNat

/-- `encode_layout`. -/
def encodeLayout : NodeLayoutSpec → Bytes
  | .prefixCompressed => [0]
  | .plain => [1]
  | .offsetTable => [2]
  | .custom id parameters => 3 :: (encodeBytes (strBytes id) ++ encodeBytes parameters)

/-- `encode_value_encoding`. -/
def encodeValueEncoding : Encoding → Bytes
  | .raw => [0]
  | .cbor => [1]
  | .json => [2]
  | .custom name => 3 :: encodeBytes (strBytes name)

/-- `FORMAT_MAGIC` and `FORMAT_VERSION`: `b"CRFT"`, 1. -/
def formatMagic : Bytes := [67, 82, 70, 84, 1]

/-- `TreeFormat::canonical_bytes`. -/
def TreeFormat.canonicalBytes (format : TreeFormat) : Result Bytes := do
  format.validate
  return formatMagic ++ encodeChunking format.chunking ++ encodeLayout format.nodeLayout
    ++ encodeValueEncoding format.valueEncoding

end Prolly

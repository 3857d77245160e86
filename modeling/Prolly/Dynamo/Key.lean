import Prolly.Dynamo.Number
import Prolly.Indexed.Key
import Prolly.Lib.SortedMap

/-!
# Prolly.Dynamo.Key

Items and their primary keys in the DynamoDB extension (`model/attribute.rs`,
`model/table.rs`, `model/key.rs`). A key is written component by component: a tag for the
type, the bytes of the value with its zeros escaped, and a terminator.

Within one schema the codes of keys are ordered as the keys are, by partition value and then
by sort value (`keyEncoding_ordered`).
-/

namespace Prolly.Dynamo

open List Option

/-! ### Items and schemas -/

/-- `AttributeValue`. A map is its entries by name. -/
inductive AttributeValue where
  | b (value : Bytes)
  | bool (value : Bool)
  | bs (values : List Bytes)
  | l (values : List AttributeValue)
  | m (entries : List (String × AttributeValue))
  | n (value : DynamoNumber)
  | ns (values : List DynamoNumber)
  | null (value : Bool)
  | s (value : String)
  | ss (values : List String)

/-- `Item`. -/
abbrev Item := SortedMap String AttributeValue

/-- `KeyKind`. -/
inductive KeyKind where
  | string
  | number
  | binary
  deriving DecidableEq

/-- `KeyAttribute`. -/
structure KeyAttribute where
  name : String
  kind : KeyKind
  deriving DecidableEq

/-- The texts of `Error::Validation` for keys and their schemas. -/
inductive KeyError where
  /-- "key contains {found} attributes; schema requires {expected}" -/
  | attributeCount (found expected : ℕ)
  /-- "partition key must contain exactly one attribute" -/
  | partitionCount
  /-- "missing key attribute {name:?}" -/
  | missing (name : String)
  /-- "key attribute {name:?} has the wrong or an empty scalar type" -/
  | wrongType (name : String)
  /-- "key attribute {name:?} exceeds {maximum} bytes" -/
  | tooLong (name : String) (maximum : ℕ)
  deriving DecidableEq

/-! ### Encoding -/

/-- `MAX_PARTITION_KEY_BYTES`. -/
def maxPartitionKeyBytes : ℕ := 2048

/-- `MAX_SORT_KEY_BYTES`. -/
def maxSortKeyBytes : ℕ := 1024

/-- The tag and the bytes of a value of the declared type. -/
def componentBytes (declaration : KeyAttribute) : AttributeValue → Except KeyError (UInt8 × Bytes)
  | .s value =>
    if declaration.kind = .string ∧ value ≠ "" then .ok (115, utf8 value)
    else .error (.wrongType declaration.name)
  | .b value =>
    if declaration.kind = .binary ∧ value ≠ [] then .ok (98, value)
    else .error (.wrongType declaration.name)
  | .n value =>
    if declaration.kind = .number then .ok (110, value.orderedBytes)
    else .error (.wrongType declaration.name)
  | _ => .error (.wrongType declaration.name)

/-- `encode_component`: what is put behind the output. The loop escapes zeros as a segment of a
key does. -/
def encodeComponent (declaration : KeyAttribute) (value : Option AttributeValue) (maximum : ℕ) :
    Except KeyError Bytes :=
  match value with
  | none => .error (.missing declaration.name)
  | some value => do
      let (tag, bytes) ← componentBytes declaration value
      if maximum < bytes.length then .error (.tooLong declaration.name maximum)
      else .ok (tag :: encodeSegment bytes)

/-- `encode_key_schema`. -/
def encodeKeySchema (partition : KeyAttribute) (sort : Option KeyAttribute) (key : Item) :
    Except KeyError Bytes :=
  let expected := 1 + if sort.isSome then 1 else 0
  if key.size ≠ expected then .error (.attributeCount key.size expected)
  else do
    let encoded ← encodeComponent partition (key.get? partition.name) maxPartitionKeyBytes
    match sort with
    | none => .ok encoded
    | some sort =>
      .ok (encoded ++ (← encodeComponent sort (key.get? sort.name) maxSortKeyBytes))

/-- `encode_partition_prefix`. -/
def encodePartitionPrefix (partition : KeyAttribute) (key : Item) : Except KeyError Bytes :=
  if key.size ≠ 1 then .error .partitionCount
  else encodeComponent partition (key.get? partition.name) maxPartitionKeyBytes

/-! ### The order of keys -/

/-- Equal key values: numbers as decimals, texts and binaries as bytes. -/
def AttributeValue.keyEq : AttributeValue → AttributeValue → Prop
  | .s value, .s value' => value = value'
  | .b value, .b value' => value = value'
  | .n number, .n number' => number.value = number'.value
  | _, _ => False

/-- The order of key values: numbers by value, texts and binaries by their bytes. -/
def AttributeValue.keyLt : AttributeValue → AttributeValue → Prop
  | .s value, .s value' => utf8 value < utf8 value'
  | .b value, .b value' => value < value'
  | .n number, .n number' => number.value < number'.value
  | _, _ => False

/-- A text or binary at the start of another. -/
def AttributeValue.keyBegins : AttributeValue → AttributeValue → Prop
  | .s value, .s value' => utf8 value <+: utf8 value'
  | .b value, .b value' => value <+: value'
  | _, _ => False

/-- The values that two keys have under a name are related. -/
def OnAttribute (relation : AttributeValue → AttributeValue → Prop) (declaration : KeyAttribute)
    (key key' : Item) : Prop :=
  ∃ value value', key.get? declaration.name = some value ∧
    key'.get? declaration.name = some value' ∧ relation value value'

/-- A value of the declared type, neither empty nor too long. -/
def KeyAttribute.Admits (declaration : KeyAttribute) (maximum : ℕ) : AttributeValue → Prop
  | .s value => declaration.kind = .string ∧ value ≠ "" ∧ (utf8 value).length ≤ maximum
  | .b value => declaration.kind = .binary ∧ value ≠ [] ∧ value.length ≤ maximum
  | .n _ => declaration.kind = .number
  | _ => False

/-- A key that conforms to a schema: a value for each key attribute and no other attribute. -/
structure Conforms (partition : KeyAttribute) (sort : Option KeyAttribute) (key : Item) :
    Prop where
  size : key.size = 1 + sort.toList.length
  partition : ∃ value, key.get? partition.name = some value ∧
    partition.Admits maxPartitionKeyBytes value
  sort : ∀ declaration ∈ sort, ∃ value, key.get? declaration.name = some value ∧
    declaration.Admits maxSortKeyBytes value

/-! ### Components -/

def KeyKind.tag : KeyKind → UInt8
  | .string => 115
  | .binary => 98
  | .number => 110

def AttributeValue.keyBytes : AttributeValue → Bytes
  | .s value => utf8 value
  | .b value => value
  | .n value => value.orderedBytes
  | _ => []

open AttributeValue (keyEq keyLt keyBegins keyBytes)

variable {declaration : KeyAttribute} {maximum : ℕ} {value value' : AttributeValue}

theorem encodeComponent_eq (hmax : 130 ≤ maximum) (h : declaration.Admits maximum value) :
    encodeComponent declaration (some value) maximum
      = .ok (declaration.kind.tag :: encodeSegment value.keyBytes) := by
  cases value with
  | s value =>
    obtain ⟨hkind, hne, hlen⟩ := h
    simp [encodeComponent, componentBytes, hkind, hne, hlen.not_gt, KeyKind.tag, keyBytes]
  | b value =>
    obtain ⟨hkind, hne, hlen⟩ := h
    simp [encodeComponent, componentBytes, hkind, hne, hlen.not_gt, KeyKind.tag, keyBytes]
  | n value =>
    have hkind : declaration.kind = .number := h
    have hlen := value.orderedBytes_length_le.trans hmax
    simp [encodeComponent, componentBytes, hkind, hlen.not_gt, KeyKind.tag, keyBytes]
  | _ => exact h.elim

/-- Values that one declaration admits are of one type. -/
theorem KeyAttribute.Admits.same_type (h : declaration.Admits maximum value)
    (h' : declaration.Admits maximum value') :
    (∃ text text', value = .s text ∧ value' = .s text') ∨
    (∃ bytes bytes', value = .b bytes ∧ value' = .b bytes') ∨
    (∃ number number', declaration.kind = .number ∧ value = .n number ∧ value' = .n number') := by
  obtain ⟨name, kind⟩ := declaration
  cases kind <;> cases value <;> cases value' <;> simp_all [KeyAttribute.Admits]

theorem keyBytes_eq_iff (h : declaration.Admits maximum value)
    (h' : declaration.Admits maximum value') :
    value.keyBytes = value'.keyBytes ↔ value.keyEq value' := by
  rcases h.same_type h' with ⟨_, _, rfl, rfl⟩ | ⟨_, _, rfl, rfl⟩ | ⟨_, _, -, rfl, rfl⟩
  · exact utf8_injective.eq_iff
  · exact Iff.rfl
  · exact DynamoNumber.orderedBytes_eq_iff

theorem keyBytes_lt_iff (h : declaration.Admits maximum value)
    (h' : declaration.Admits maximum value') :
    value.keyBytes < value'.keyBytes ↔ value.keyLt value' := by
  rcases h.same_type h' with ⟨_, _, rfl, rfl⟩ | ⟨_, _, rfl, rfl⟩ | ⟨_, _, -, rfl, rfl⟩
  · exact Iff.rfl
  · exact Iff.rfl
  · exact DynamoNumber.orderedBytes_lt_iff

theorem keyBytes_prefix_iff (hkind : declaration.kind ≠ .number)
    (h : declaration.Admits maximum value) (h' : declaration.Admits maximum value') :
    value.keyBytes <+: value'.keyBytes ↔ value.keyBegins value' := by
  rcases h.same_type h' with ⟨_, _, rfl, rfl⟩ | ⟨_, _, rfl, rfl⟩ | ⟨_, _, hnumber, -, -⟩
  · exact Iff.rfl
  · exact Iff.rfl
  · exact absurd hnumber hkind

/-! ### Keys -/

variable {partition : KeyAttribute} {sort : Option KeyAttribute} {key key' : Item}

/-- What stands behind the partition component. -/
def sortCode (sort : Option KeyAttribute) (key : Item) : Bytes :=
  sort.toList.flatMap fun declaration =>
    declaration.kind.tag ::
      encodeSegment (((key.get? declaration.name).map keyBytes).getD [])

/-- The code of a key: the partition component and, where there is one, the sort component. -/
theorem encodeKeySchema_eq (h : Conforms partition sort key) {value : AttributeValue}
    (hvalue : key.get? partition.name = some value) :
    encodeKeySchema partition sort key
      = .ok (partition.kind.tag :: (encodeSegment value.keyBytes ++ sortCode sort key)) := by
  obtain ⟨value', hvalue', hadmits⟩ := h.partition
  cases hvalue.symm.trans hvalue'
  have hcomponent := encodeComponent_eq (by decide) hadmits
  have hsize := h.size
  cases sort with
  | none =>
    simp only [toList_none, length_nil] at hsize
    simp [encodeKeySchema, hsize, hvalue, hcomponent, sortCode]
  | some declaration =>
    obtain ⟨sortValue, hsortValue, hsort⟩ := h.sort declaration rfl
    have hsortComponent := encodeComponent_eq (by decide) hsort
    simp only [toList_some, length_singleton] at hsize
    simp [encodeKeySchema, hsize, hvalue, hcomponent, hsortValue, hsortComponent, sortCode]

theorem onAttribute_iff {relation : AttributeValue → AttributeValue → Prop}
    (hvalue : key.get? declaration.name = some value)
    (hvalue' : key'.get? declaration.name = some value') :
    OnAttribute relation declaration key key' ↔ relation value value' := by
  constructor
  · rintro ⟨v, v', hv, hv', h⟩
    cases hv.symm.trans hvalue
    cases hv'.symm.trans hvalue'
    exact h
  · exact fun h => ⟨value, value', hvalue, hvalue', h⟩

/-- The codes of two keys of one schema with a sort attribute. -/
theorem sortCode_some (declaration : KeyAttribute)
    (hvalue : key.get? declaration.name = some value) :
    sortCode (some declaration) key = declaration.kind.tag :: encodeSegment value.keyBytes := by
  simp [sortCode, hvalue]

theorem sortCode_eq_iff (h : Conforms partition sort key) (h' : Conforms partition sort key') :
    sortCode sort key = sortCode sort key' ↔
      ∀ declaration ∈ sort, OnAttribute keyEq declaration key key' := by
  cases sort with
  | none => simp [sortCode]
  | some declaration =>
    obtain ⟨value, hvalue, hadmits⟩ := h.sort declaration rfl
    obtain ⟨value', hvalue', hadmits'⟩ := h'.sort declaration rfl
    rw [sortCode_some declaration hvalue, sortCode_some declaration hvalue']
    simp only [List.cons.injEq, true_and, mem_def, Option.some.injEq, forall_eq']
    rw [onAttribute_iff hvalue hvalue', ← keyBytes_eq_iff hadmits hadmits']
    refine ⟨fun heq => ?_, fun heq => by rw [heq]⟩
    exact (encodeSegment_orderCode.append_inj (r := []) (s := []) (by simpa using heq)).1

theorem sortCode_lt_iff (h : Conforms partition sort key) (h' : Conforms partition sort key') :
    sortCode sort key < sortCode sort key' ↔
      ∃ declaration ∈ sort, OnAttribute keyLt declaration key key' := by
  cases sort with
  | none => simp [sortCode]
  | some declaration =>
    obtain ⟨value, hvalue, hadmits⟩ := h.sort declaration rfl
    obtain ⟨value', hvalue', hadmits'⟩ := h'.sort declaration rfl
    have hlt := encodeSegment_orderCode.lt_iff (a := value.keyBytes) (b := value'.keyBytes)
      (r := []) (s := [])
    rw [sortCode_some declaration hvalue, sortCode_some declaration hvalue', cons_lt_cons_iff]
    simp only [append_nil, lt_self_iff_false, and_false, or_false] at hlt
    simp only [lt_self_iff_false, true_and, false_or, mem_def, Option.some.injEq, exists_eq_left']
    rw [onAttribute_iff hvalue hvalue', ← keyBytes_lt_iff hadmits hadmits', hlt]

/-- The item of a partition attribute and a sort attribute is a key. -/
theorem conforms_pair {sort : KeyAttribute} (hname : sort.name ≠ partition.name)
    (hpartition : partition.Admits maxPartitionKeyBytes value)
    (hsort : sort.Admits maxSortKeyBytes value') :
    Conforms partition (some sort)
      (((∅ : Item).insert partition.name value).insert sort.name value') := by
  refine ⟨?_, ⟨value, ?_, hpartition⟩, ?_⟩
  · have hfirst := (∅ : Item).size_set partition.name (some value)
    have hsecond := ((∅ : Item).insert partition.name value).size_set sort.name (some value')
    rw [SortedMap.get?_insert, if_neg (Ne.symm hname), SortedMap.get?_empty] at hsecond
    exact hsecond.trans (congrArg (· + 1) hfirst)
  · rw [SortedMap.get?_insert, if_neg hname, SortedMap.get?_insert, if_pos rfl]
  · rintro declaration hdeclaration
    cases mem_def.mp hdeclaration
    exact ⟨value', by rw [SortedMap.get?_insert, if_pos rfl], hsort⟩

/-- The partition prefix of a key is the code of its partition component. -/
theorem encodePartitionPrefix_eq (hadmits : partition.Admits maxPartitionKeyBytes value) :
    encodePartitionPrefix partition ((∅ : Item).insert partition.name value)
      = .ok (partition.kind.tag :: encodeSegment value.keyBytes) := by
  have hget : ((∅ : Item).insert partition.name value).get? partition.name = some value := by
    rw [SortedMap.get?_insert, if_pos rfl]
  unfold encodePartitionPrefix
  rw [hget, if_neg
    (by simp [SortedMap.size, SortedMap.insert, show (∅ : Item).entries = [] from rfl])]
  exact encodeComponent_eq (by decide) hadmits

/-- Without its terminator the sort component is the code of a beginning. -/
theorem dropTerminator_eq (tag sortTag : UInt8) (bytes sortBytes : Bytes) :
    (tag :: (encodeSegment bytes ++ sortTag :: encodeSegment sortBytes)).take
        ((tag :: (encodeSegment bytes ++ sortTag :: encodeSegment sortBytes)).length - 2) =
      tag :: (encodeSegment bytes ++ sortTag :: encodeSegmentPrefix sortBytes) := by
  have hcode : tag :: (encodeSegment bytes ++ sortTag :: encodeSegment sortBytes) =
      (tag :: (encodeSegment bytes ++ sortTag :: encodeSegmentPrefix sortBytes)) ++ [0, 0] := by
    simp [encodeSegment_eq]
  rw [hcode, length_append, take_left' (by simp)]

/-- The code of a beginning is at the start of the codes of the texts it begins. -/
theorem beginning_prefix_iff {partitionValue partitionValue' : AttributeValue}
    (hkind : declaration.kind ≠ .number)
    (hpartition : partition.Admits maxPartitionKeyBytes partitionValue)
    (hpartition' : partition.Admits maxPartitionKeyBytes partitionValue')
    (h : declaration.Admits maximum value) (h' : declaration.Admits maximum value') :
    partition.kind.tag :: (encodeSegment partitionValue.keyBytes ++
        declaration.kind.tag :: encodeSegmentPrefix value.keyBytes) <+:
      partition.kind.tag :: (encodeSegment partitionValue'.keyBytes ++
        declaration.kind.tag :: encodeSegment value'.keyBytes) ↔
      partitionValue.keyEq partitionValue' ∧ value.keyBegins value' := by
  have hbegins := encodeSegmentPrefix_iff value.keyBytes value'.keyBytes []
  rw [append_nil] at hbegins
  rw [← keyBytes_eq_iff hpartition hpartition', ← keyBytes_prefix_iff hkind h h',
    cons_prefix_cons, encodeSegment_orderCode.append_prefix_append_iff, cons_prefix_cons, hbegins]
  simp only [true_and]

/-- The encoding of keys preserves equality, order and prefixes. -/
theorem keyEncoding_ordered (partition : KeyAttribute) (sort : Option KeyAttribute)
    (key key' : Item) (h : Conforms partition sort key) (h' : Conforms partition sort key') :
    ∃ code code' partitionCode value,
      encodeKeySchema partition sort key = .ok code ∧
      encodeKeySchema partition sort key' = .ok code' ∧
      key.get? partition.name = some value ∧
      encodePartitionPrefix partition ((∅ : Item).insert partition.name value)
        = .ok partitionCode ∧
      (code = code' ↔ OnAttribute keyEq partition key key' ∧
        ∀ declaration ∈ sort, OnAttribute keyEq declaration key key') ∧
      (code < code' ↔ OnAttribute keyLt partition key key' ∨
        OnAttribute keyEq partition key key' ∧
          ∃ declaration ∈ sort, OnAttribute keyLt declaration key key') ∧
      (partitionCode <+: code' ↔ OnAttribute keyEq partition key key') ∧
      ∀ declaration ∈ sort, declaration.kind ≠ .number →
        (code.take (code.length - 2) <+: code' ↔
          OnAttribute keyEq partition key key' ∧
          OnAttribute keyBegins declaration key key') := by
  obtain ⟨value, hvalue, hadmits⟩ := h.partition
  obtain ⟨value', hvalue', hadmits'⟩ := h'.partition
  refine ⟨_, _, _, value, encodeKeySchema_eq h hvalue, encodeKeySchema_eq h' hvalue', hvalue,
    encodePartitionPrefix_eq hadmits, ?_, ?_, ?_, ?_⟩
  · rw [onAttribute_iff hvalue hvalue', ← keyBytes_eq_iff hadmits hadmits', ← sortCode_eq_iff h h',
      List.cons.injEq]
    refine ⟨fun heq => encodeSegment_orderCode.append_inj heq.2, fun heq => ⟨rfl, ?_⟩⟩
    rw [heq.1, heq.2]
  · rw [onAttribute_iff hvalue hvalue', onAttribute_iff hvalue hvalue',
      ← keyBytes_eq_iff hadmits hadmits', ← keyBytes_lt_iff hadmits hadmits',
      ← sortCode_lt_iff h h', cons_lt_cons_iff, encodeSegment_orderCode.lt_iff]
    simp only [lt_self_iff_false, true_and, false_or]
  · rw [onAttribute_iff hvalue hvalue', ← keyBytes_eq_iff hadmits hadmits', cons_prefix_cons,
      encodeSegment_orderCode.prefix_append_iff]
    simp only [true_and]
  · rintro declaration hdeclaration hkind
    cases mem_def.mp hdeclaration
    obtain ⟨sortValue, hsort, hsortAdmits⟩ := h.sort declaration rfl
    obtain ⟨sortValue', hsort', hsortAdmits'⟩ := h'.sort declaration rfl
    rw [onAttribute_iff hvalue hvalue', onAttribute_iff hsort hsort',
      sortCode_some declaration hsort, sortCode_some declaration hsort', dropTerminator_eq]
    exact beginning_prefix_iff hkind hadmits hadmits' hsortAdmits hsortAdmits'

/-- A negative number before a positive one, and a text at the start of another. -/
theorem keyEncoding_ordered_numbers :
    let low : DynamoNumber := ⟨utf8 "-1.5", " -15e-1", by decide +kernel⟩
    let high : DynamoNumber := ⟨utf8 "20", "20.0", by decide +kernel⟩
    let key : Item := ((∅ : Item).insert "id" (.n low)).insert "name" (.s "x")
    let key' : Item := ((∅ : Item).insert "id" (.n high)).insert "name" (.s "xy")
    let partition : KeyAttribute := ⟨"id", .number⟩
    let sort : KeyAttribute := ⟨"name", .string⟩
    Conforms partition (some sort) key ∧ Conforms partition (some sort) key' ∧
      ∃ code code', encodeKeySchema partition (some sort) key = .ok code ∧
        encodeKeySchema partition (some sort) key' = .ok code' ∧
        (code < code' ↔ OnAttribute keyLt partition key key' ∨
          OnAttribute keyEq partition key key' ∧
            ∃ declaration ∈ some sort, OnAttribute keyLt declaration key key') := by
  intro low high key key' partition sort
  have h : Conforms partition (some sort) key :=
    conforms_pair (by decide) rfl ⟨rfl, by decide, by decide +kernel⟩
  have h' : Conforms partition (some sort) key' :=
    conforms_pair (by decide) rfl ⟨rfl, by decide, by decide +kernel⟩
  obtain ⟨code, code', -, -, hcode, hcode', -, -, -, hlt, -⟩ :=
    keyEncoding_ordered partition (some sort) key key' h h'
  exact ⟨h, h', code, code', hcode, hcode', hlt⟩

end Prolly.Dynamo

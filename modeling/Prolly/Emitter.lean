import Prolly.Boundary
import Prolly.Node

/-!
# Prolly.Emitter

The streaming level emitter (`builder/streaming.rs`, `builder/size.rs`): entries
of one level go in one by one, finished nodes come out. A node ends where the
boundary detector says so, or just before an entry that would push its encoding
past the hard byte cap.

What the rest of the development uses of it is `LevelEmitter.Emits`: the nodes
that come out are the consecutive non-empty pieces of what went in
(`feed_spec`). Which pieces is the detector's business.
-/

namespace Prolly

/-! ### Node sizes -/

/-- A `u64` computation in `checked_add`s: overflow is `InvalidNode`. -/
def checkedU64 (n : Nat) : Result Nat := if n ≤ u64Max then .ok n else .error .invalidNode

/-- `varint_len`: the number of 7-bit groups, at most `fuel + 1`. -/
def varintLenAux : Nat → Nat → Nat
  | 0, _ => 1
  | fuel + 1, value => if value < 128 then 1 else varintLenAux fuel (value / 128) + 1

/-- `varint_len`. A number has fewer 7-bit groups than its value. -/
def varintLen (value : Nat) : Nat := varintLenAux value value

/-- `EncodedNodeSizer`: the size of the compact encoding, entry by entry. -/
structure EncodedNodeSizer where
  format : TreeFormat
  leaf : Bool
  level : Nat
  count : Nat := 0
  size : Nat
  emptySize : Nat
  payloadLen : Nat := 0
  deriving DecidableEq

/-- The error every built-in codec gives for a custom layout. -/
def noCodec (id : String) : Error :=
  .invalidFormat ("node layout '" ++ id ++ "' has no registered codec")

namespace EncodedNodeSizer

/-- `EncodedNodeSizer::new`. -/
def new (format : TreeFormat) (leaf : Bool) (level : Nat) : Result EncodedNodeSizer := do
  format.validate
  match format.nodeLayout with
  | .custom id _ => .error (noCodec id)
  | layout =>
    let formatBytes ← Node.formatBytes format
    let formatLen := formatBytes.length
    let tail := if layout = .offsetTable then varintLen 0 else 0
    let emptySize ← checkedU64 (4 + varintLen 2 + varintLen formatLen + formatLen
      + varintLen (if leaf then 1 else 0) + varintLen level + varintLen 0 + tail)
    return { format, leaf, level, size := emptySize, emptySize }

/-- `validate_child_count`. -/
def validateChildCount (leaf : Bool) (childCount : Option Nat) : Result Unit :=
  match leaf, childCount with
  | true, none => .ok ()
  | false, some (_ + 1) => .ok ()
  | _, _ => .error .invalidNode

/-- `EncodedNodeSizer::size_after`. -/
def sizeAfter (s : EncodedNodeSizer) (previousKey : Option Bytes) (key value : Bytes)
    (childCount : Option Nat) : Result Nat := do
  validateChildCount s.leaf childCount
  let countWidthDelta := varintLen (s.count + 1) - varintLen s.count
  let childWidth := (childCount.map varintLen).getD 0
  match s.format.nodeLayout with
  | .prefixCompressed =>
    let shared := (previousKey.map fun previous => Node.commonPrefixLen previous key).getD 0
    let suffixLen := key.length - shared
    checkedU64 (s.size + countWidthDelta + (varintLen shared + varintLen suffixLen + suffixLen
      + varintLen value.length + value.length + childWidth))
  | .plain =>
    checkedU64 (s.size + countWidthDelta + (varintLen key.length + key.length
      + varintLen value.length + value.length + childWidth))
  | .offsetTable =>
    let valueOffset := s.payloadLen + key.length
    let payloadWidthDelta := varintLen (valueOffset + value.length) - varintLen s.payloadLen
    checkedU64 (s.size + countWidthDelta + (varintLen s.payloadLen + varintLen key.length
      + varintLen valueOffset + varintLen value.length + childWidth + payloadWidthDelta
      + key.length + value.length))
  | .custom _ _ => .error .invalidNode

/-- `EncodedNodeSizer::push_sized`. -/
def pushSized (s : EncodedNodeSizer) (key value : Bytes) (size : Nat) : EncodedNodeSizer :=
  { s with size, count := s.count + 1, payloadLen := s.payloadLen + key.length + value.length }

/-- `EncodedNodeSizer::reset`. -/
def reset (s : EncodedNodeSizer) : EncodedNodeSizer :=
  { s with count := 0, size := s.emptySize, payloadLen := 0 }

end EncodedNodeSizer

/-! ### The emitter -/

/-- `NodeSummary`: how a parent names a node. -/
structure NodeSummary where
  cid : Cid
  firstKey : Bytes
  count : Nat
  deriving DecidableEq

/-- `EmittedNode`. Its bytes are those of the node. -/
structure EmittedNode where
  summary : NodeSummary
  node : Node
  deriving DecidableEq

variable (d : Digests) (format : TreeFormat) (n : Node) (leaf : Bool) (level : Nat)

/-- `node.keys.first().cloned().unwrap_or_default()`. -/
def Node.headKey : Bytes := n.keys.headD []

def Node.summary : NodeSummary := ⟨n.cid d, n.headKey, n.storedCount⟩

/-- `new_builder_node`. -/
def newBuilderNode : Node :=
  { leaf, level, format }

/-- `Node` with one more entry. -/
def Node.push (key value : Bytes) (childCount : Option Nat) : Node :=
  { n with
    keys := n.keys ++ [key]
    vals := n.vals ++ [value]
    childCounts := n.childCounts ++ childCount.toList }

/-- `conservative_entry_upper`. -/
def conservativeEntryUpper (key value : Bytes) (childCount : Option Nat) : Nat :=
  key.length + value.length + if childCount.isSome then 74 else 64

/-- `conservative_empty_upper`. -/
def conservativeEmptyUpper : Nat :=
  match format.valueEncoding with
  | .custom name => 128 + (strBytes name).length
  | _ => 128

/-- `LevelEmitter`. The sizer is there exactly when chunks are measured in encoded
bytes. -/
structure LevelEmitter where
  format : TreeFormat
  leaf : Bool
  level : Nat
  current : Node
  detector : BoundaryDetector
  sizer : Option EncodedNodeSizer
  upperSize : Nat
  deriving DecidableEq

namespace LevelEmitter

/-- The sizer of a level: `encoded_measure.then(..).transpose()`. -/
def newSizer (format : TreeFormat) (leaf : Bool) (level : Nat) :
    Result (Option EncodedNodeSizer) :=
  if format.chunking.measure = .encodedBytes then (EncodedNodeSizer.new format leaf level).map some
  else .ok none

def emptyUpper (format : TreeFormat) (sizer : Option EncodedNodeSizer) : Nat :=
  match sizer with
  | some sizer => sizer.size
  | none => conservativeEmptyUpper format

/-- `LevelEmitter::new`. -/
def new (format : TreeFormat) (leaf : Bool) (level : Nat) : Result LevelEmitter := do
  if leaf ≠ decide (level = 0) then .error .invalidNode
  else
    format.validate
    match format.nodeLayout with
    | .custom id _ => .error (noCodec id)
    | _ =>
      let sizer ← newSizer format leaf level
      let detector ← BoundaryDetector.new format.chunking level
      return { format, leaf, level, current := newBuilderNode format leaf level, detector, sizer,
               upperSize := emptyUpper format sizer }

/-- `LevelEmitter::is_empty`. -/
def isEmpty (e : LevelEmitter) : Bool := e.current.isEmpty

variable (d : Digests) (e : LevelEmitter) (key value : Bytes) (childCount : Option Nat)

/-- `hard_max_node_bytes`. -/
def hardMax : Nat := e.format.chunking.hardMaxNodeBytes.toNat

/-- The emitter with an empty node in place of the current one. -/
def cleared : LevelEmitter :=
  let sizer := e.sizer.map EncodedNodeSizer.reset
  { e with current := newBuilderNode e.format e.leaf e.level, sizer,
           upperSize := emptyUpper e.format sizer }

/-- `flush_current`. -/
def flushCurrent : Result (Option EmittedNode × LevelEmitter) :=
  if e.current.isEmpty then .ok (none, e)
  else if e.hardMax < e.current.toBytes.length then
    .error (.entryTooLarge e.current.toBytes.length e.hardMax)
  else .ok (some ⟨e.current.summary d, e.current⟩, e.cleared)

/-- The size of a node, entry by entry: the loop of `exact_size_after`. -/
def sizeRows (leaf : Bool) : EncodedNodeSizer → Option Bytes → List Node.Row →
    Result EncodedNodeSizer
  | sizer, _, [] => .ok sizer
  | sizer, previousKey, row :: rows => do
      let size ← sizer.sizeAfter previousKey row.key row.val (if leaf then none else some row.count)
      sizeRows leaf (sizer.pushSized row.key row.val size) (some row.key) rows

/-- `exact_size_after`. -/
def exactSizeAfter : Result Nat := do
  let sizer ← EncodedNodeSizer.new e.format e.leaf e.level
  let sizer ← sizeRows e.leaf sizer none
    (Node.rows e.current.keys e.current.vals e.current.childCounts)
  sizer.sizeAfter e.current.keys.getLast? key value childCount

/-- A node that ends before the entry that would not fit: flush it and start afresh. -/
def capFlush : Result (List EmittedNode × LevelEmitter) := do
  let (emitted, e) ← e.flushCurrent d
  return (emitted.toList, { e with detector := e.detector.reset })

/-- The flush before an entry, sizes counted exactly: what was flushed, the sizer and the
size with the entry. -/
def roomEncoded (sizer : EncodedNodeSizer) (key value : Bytes) (childCount : Option Nat)
    (encodedSize : Nat) : Result (List EmittedNode × LevelEmitter × EncodedNodeSizer × Nat) :=
  if ¬ e.current.isEmpty ∧ e.hardMax < encodedSize then do
    let (flushed, e) ← e.capFlush d
    let encodedSize ← sizer.reset.sizeAfter none key value childCount
    return (flushed, e, sizer.reset, encodedSize)
  else .ok ([], e, sizer, encodedSize)

/-- Make room for an entry, sizes counted exactly. Returns what was flushed and the
entry's share of the encoding. -/
def fitEncoded (sizer : EncodedNodeSizer) (key value : Bytes) (childCount : Option Nat)
    : Result (List EmittedNode × LevelEmitter × Nat) := do
  let encodedSize ← sizer.sizeAfter e.current.keys.getLast? key value childCount
  let (flushed, e, sizer, encodedSize) ← e.roomEncoded d sizer key value childCount encodedSize
  if e.hardMax < encodedSize then .error (.entryTooLarge encodedSize e.hardMax)
  else
    return (flushed,
      { e with sizer := some (sizer.pushSized key value encodedSize), upperSize := encodedSize },
      encodedSize - sizer.size)

/-- The flush before an entry whose exact size exceeds the cap. -/
def roomUpper (encodedSize : Nat) : Result (List EmittedNode × LevelEmitter × Nat) :=
  if ¬ e.current.isEmpty ∧ e.hardMax < encodedSize then do
    let (flushed, e) ← e.capFlush d
    let encodedSize ← e.exactSizeAfter key value childCount
    return (flushed, e, encodedSize)
  else .ok ([], e, encodedSize)

/-- Make room for an entry by an upper bound; sizes are counted exactly only where the
bound exceeds the cap. -/
def fitUpper : Result (List EmittedNode × LevelEmitter × Nat) := do
  let upper ← checkedU64 (e.upperSize + conservativeEntryUpper key value childCount)
  if upper ≤ e.hardMax then return ([], { e with upperSize := upper }, 0)
  else
    let encodedSize ← e.exactSizeAfter key value childCount
    let (flushed, e, encodedSize) ← e.roomUpper d key value childCount encodedSize
    if e.hardMax < encodedSize then .error (.entryTooLarge encodedSize e.hardMax)
    else return (flushed, { e with upperSize := encodedSize }, 0)

/-- The part of `push_entry_with` before the boundary detector sees the entry. -/
def fit : Result (List EmittedNode × LevelEmitter × Nat) :=
  match e.sizer with
  | some sizer => e.fitEncoded d sizer key value childCount
  | none => e.fitUpper d key value childCount

/-- The part of `push_entry_with` from the boundary detector on. -/
def take (encodedEntryBytes : Nat) : Result (List EmittedNode × LevelEmitter) := do
  let (boundary, detector) ← e.detector.observe d key value encodedEntryBytes
  let e := { e with detector, current := e.current.push key value childCount }
  if boundary then
    let (emitted, e) ← e.flushCurrent d
    return (emitted.toList, e)
  else return ([], e)

/-- `push_entry_with`: the nodes it emits, in order. -/
def pushEntry : Result (List EmittedNode × LevelEmitter) := do
  let (flushed, e, encodedEntryBytes) ← e.fit d key value childCount
  let (emitted, e) ← e.take d key value childCount encodedEntryBytes
  return (flushed ++ emitted, e)

/-- `push_leaf`. -/
def pushLeaf (entry : Entry) : Result (List EmittedNode × LevelEmitter) :=
  if e.leaf then e.pushEntry d entry.1 entry.2 none else .error .invalidNode

/-- `push_child`. -/
def pushChild (child : NodeSummary) : Result (List EmittedNode × LevelEmitter) :=
  if e.leaf then .error .invalidNode
  else e.pushEntry d child.firstKey child.cid.bytes (some child.count)

/-- A loop of pushes. -/
def feed {α : Type} (push : LevelEmitter → α → Result (List EmittedNode × LevelEmitter)) :
    LevelEmitter → List α → Result (List EmittedNode × LevelEmitter)
  | e, [] => .ok ([], e)
  | e, x :: xs => do
      let (emitted, e) ← push e x
      let (rest, e) ← feed push e xs
      return (emitted ++ rest, e)

/-- `push_leaf` for each entry. -/
def pushLeaves : LevelEmitter → List Entry → Result (List EmittedNode × LevelEmitter) :=
  feed (pushLeaf d)

/-- `push_child` for each summary. -/
def pushChildren : LevelEmitter → List NodeSummary → Result (List EmittedNode × LevelEmitter) :=
  feed (pushChild d)

/-- `finish`. -/
def finish : Result (List EmittedNode) := do
  let (emitted, _) ← e.flushCurrent d
  return emitted.toList

end LevelEmitter

/-! ### What comes out

A node made of rows, and the statement that emitted nodes are the consecutive
pieces of the rows that went in. -/

def Node.ofRows (rows : List Node.Row) : Node where
  keys := rows.map Node.Row.key
  vals := rows.map Node.Row.val
  childCounts := if leaf then [] else rows.map Node.Row.count
  leaf := leaf
  level := level
  format := format

def EmittedNode.of : EmittedNode := ⟨n.summary d, n⟩

/-- Of the rows `rows` the nodes `out` hold all but the last `rest`. -/
def Emits (rows : List Node.Row) (out : List EmittedNode) (rest : List Node.Row) : Prop :=
  ∃ chunks : List (List Node.Row), (∀ c ∈ chunks, c ≠ []) ∧ rows = chunks.flatten ++ rest ∧
    out = chunks.map fun c => EmittedNode.of d (Node.ofRows format leaf level c)

namespace Emits

variable {d : Digests} {format : TreeFormat} {leaf : Bool} {level : Nat}
  {rows rest : List Node.Row} {out : List EmittedNode}

theorem nothing (rows : List Node.Row) : Emits d format leaf level rows [] rows :=
  ⟨[], by simp, by simp, rfl⟩

theorem one (h : rows ≠ []) :
    Emits d format leaf level rows [EmittedNode.of d (Node.ofRows format leaf level rows)] [] :=
  ⟨[rows], by simpa using h, by simp, rfl⟩

theorem append {more rest' : List Node.Row} {out' : List EmittedNode}
    (h : Emits d format leaf level rows out rest)
    (h' : Emits d format leaf level (rest ++ more) out' rest') :
    Emits d format leaf level (rows ++ more) (out ++ out') rest' := by
  obtain ⟨cs, hne, rfl, rfl⟩ := h
  obtain ⟨cs', hne', hrest, rfl⟩ := h'
  refine ⟨cs ++ cs', ?_, ?_, by simp⟩
  · intro c hc
    rcases List.mem_append.mp hc with hc | hc
    · exact hne c hc
    · exact hne' c hc
  · rw [List.append_assoc, hrest, List.flatten_append, List.append_assoc]

end Emits

namespace LevelEmitter

variable {d : Digests} {e e' : LevelEmitter} {format : TreeFormat} {leaf : Bool} {level : Nat}
  {rows : List Node.Row} {out : List EmittedNode} {key value : Bytes} {childCount : Option Nat}
  {n : Nat}

/-- The emitter works on one level and its current node holds the rows. -/
structure Buffers (e : LevelEmitter) (format : TreeFormat) (leaf : Bool) (level : Nat)
    (rows : List Node.Row) : Prop where
  format_eq : e.format = format
  leaf_eq : e.leaf = leaf
  level_eq : e.level = level
  current : e.current = Node.ofRows format leaf level rows

/-- The emitter has emitted the rows up to those that it buffers. -/
abbrev EmitsTo (d : Digests) (format : TreeFormat) (leaf : Bool) (level : Nat)
    (rows : List Node.Row) (out : List EmittedNode) (e : LevelEmitter) : Prop :=
  ∃ rest, Emits d format leaf level rows out rest ∧ e.Buffers format leaf level rest

theorem new_buffers (h : new format leaf level = .ok e) : e.Buffers format leaf level [] := by
  unfold new at h
  split at h
  · cases h
  · obtain ⟨_, -, h⟩ := of_bind h
    split at h
    · cases h
    · obtain ⟨_, -, h⟩ := of_bind h
      obtain ⟨_, -, h⟩ := of_bind h
      cases h
      exact ⟨rfl, rfl, rfl, by simp [newBuilderNode, Node.ofRows]⟩

theorem Buffers.isEmpty (h : e.Buffers format leaf level rows) : e.isEmpty = rows.isEmpty := by
  simp [LevelEmitter.isEmpty, Node.isEmpty, h.current, Node.ofRows]

theorem flushCurrent_spec (h : e.Buffers format leaf level rows) {emitted : Option EmittedNode}
    (hf : e.flushCurrent d = .ok (emitted, e')) :
    Emits d format leaf level rows emitted.toList [] ∧ e'.Buffers format leaf level [] := by
  unfold flushCurrent at hf
  have hempty : e.current.isEmpty = rows.isEmpty := h.isEmpty
  by_cases hrows : rows = []
  · subst hrows
    rw [if_pos (by simpa using hempty)] at hf
    cases hf
    exact ⟨.nothing [], h⟩
  · rw [if_neg (by simpa [hempty] using hrows)] at hf
    split at hf
    · cases hf
    · cases hf
      refine ⟨?_, h.format_eq, h.leaf_eq, h.level_eq, ?_⟩
      · rw [h.current]
        exact .one hrows
      · simp [cleared, newBuilderNode, Node.ofRows, h.format_eq, h.leaf_eq, h.level_eq]

theorem capFlush_spec (h : e.Buffers format leaf level rows) (hf : e.capFlush d = .ok (out, e')) :
    Emits d format leaf level rows out [] ∧ e'.Buffers format leaf level [] := by
  obtain ⟨⟨emitted, e1⟩, hflush, hf⟩ := of_bind hf
  cases hf
  obtain ⟨hemits, hbuf⟩ := flushCurrent_spec h hflush
  exact ⟨hemits, hbuf.format_eq, hbuf.leaf_eq, hbuf.level_eq, hbuf.current⟩

theorem fitEncoded_spec (h : e.Buffers format leaf level rows) {sizer : EncodedNodeSizer}
    (hf : e.fitEncoded d sizer key value childCount = .ok (out, e', n)) :
    EmitsTo d format leaf level rows out e' := by
  obtain ⟨size, -, hf⟩ := of_bind hf
  obtain ⟨⟨flushed, e1, sizer1, size1⟩, hflush, hf⟩ := of_bind hf
  have hroom : EmitsTo d format leaf level rows flushed e1 := by
    unfold roomEncoded at hflush
    split at hflush
    · obtain ⟨⟨flushed', e2⟩, hcap, hflush⟩ := of_bind hflush
      obtain ⟨_, -, hflush⟩ := of_bind hflush
      cases hflush
      exact ⟨[], capFlush_spec h hcap⟩
    · cases hflush
      exact ⟨rows, .nothing rows, h⟩
  obtain ⟨rest, hemits, hbuf⟩ := hroom
  dsimp only at hf
  split at hf
  · cases hf
  · cases hf
    exact ⟨rest, hemits, hbuf.format_eq, hbuf.leaf_eq, hbuf.level_eq, hbuf.current⟩

theorem fitUpper_spec (h : e.Buffers format leaf level rows)
    (hf : e.fitUpper d key value childCount = .ok (out, e', n)) :
    EmitsTo d format leaf level rows out e' := by
  obtain ⟨upper, -, hf⟩ := of_bind hf
  split at hf
  · cases hf
    exact ⟨rows, .nothing rows, h.format_eq, h.leaf_eq, h.level_eq, h.current⟩
  · obtain ⟨size, -, hf⟩ := of_bind hf
    obtain ⟨⟨flushed, e1, size1⟩, hflush, hf⟩ := of_bind hf
    have hroom : EmitsTo d format leaf level rows flushed e1 := by
      unfold roomUpper at hflush
      split at hflush
      · obtain ⟨⟨flushed', e2⟩, hcap, hflush⟩ := of_bind hflush
        obtain ⟨_, -, hflush⟩ := of_bind hflush
        cases hflush
        exact ⟨[], capFlush_spec h hcap⟩
      · cases hflush
        exact ⟨rows, .nothing rows, h⟩
    obtain ⟨rest, hemits, hbuf⟩ := hroom
    dsimp only at hf
    split at hf
    · cases hf
    · cases hf
      exact ⟨rest, hemits, hbuf.format_eq, hbuf.leaf_eq, hbuf.level_eq, hbuf.current⟩

/-- One push: the emitted nodes hold the buffered rows and the new one, up to what is
buffered now. -/
theorem pushEntry_spec (h : e.Buffers format leaf level rows) (hcount : childCount.isSome = !leaf)
    (hp : e.pushEntry d key value childCount = .ok (out, e')) :
    EmitsTo d format leaf level (rows ++ [⟨key, value, childCount.getD 0⟩]) out e' := by
  obtain ⟨⟨flushed, e1, n⟩, hfit, hp⟩ := of_bind hp
  obtain ⟨⟨emitted, e2⟩, htake, hp⟩ := of_bind hp
  cases hp
  obtain ⟨⟨boundary, detector⟩, -, htake⟩ := of_bind htake
  have hroom : EmitsTo d format leaf level rows flushed e1 := by
    unfold fit at hfit
    split at hfit
    · exact fitEncoded_spec h hfit
    · exact fitUpper_spec h hfit
  obtain ⟨rest, hemits, hbuf⟩ := hroom
  dsimp only at htake
  have hcurrent : e1.current.push key value childCount =
      Node.ofRows format leaf level (rest ++ [⟨key, value, childCount.getD 0⟩]) := by
    rw [hbuf.current]
    cases leaf <;> cases childCount <;> simp_all [Node.push, Node.ofRows]
  have hpushed : Buffers { e1 with detector, current := e1.current.push key value childCount }
      format leaf level (rest ++ [⟨key, value, childCount.getD 0⟩]) :=
    ⟨hbuf.format_eq, hbuf.leaf_eq, hbuf.level_eq, hcurrent⟩
  split at htake
  · obtain ⟨⟨last, e3⟩, hflush, htake⟩ := of_bind htake
    cases htake
    obtain ⟨hlast, hbuf'⟩ := flushCurrent_spec hpushed hflush
    exact ⟨[], hemits.append hlast, hbuf'⟩
  · cases htake
    exact ⟨_, hemits.append (.nothing _), hpushed⟩

def entryRow (entry : Entry) : Node.Row := ⟨entry.1, entry.2, 0⟩

def childRow (child : NodeSummary) : Node.Row := ⟨child.firstKey, child.cid.bytes, child.count⟩

/-- A loop of pushes, each of which adds one row. -/
theorem feed_spec {α : Type} {row : α → Node.Row}
    {push : LevelEmitter → α → Result (List EmittedNode × LevelEmitter)}
    (hpush : ∀ {e e' : LevelEmitter} {rows : List Node.Row} {x : α} {out : List EmittedNode},
      e.Buffers format leaf level rows → push e x = .ok (out, e') →
        EmitsTo d format leaf level (rows ++ [row x]) out e')
    (h : e.Buffers format leaf level rows) {xs : List α} (hf : feed push e xs = .ok (out, e')) :
    EmitsTo d format leaf level (rows ++ xs.map row) out e' := by
  induction xs generalizing e rows out with
  | nil =>
    cases hf
    exact ⟨rows, by simpa using Emits.nothing rows, h⟩
  | cons x xs ih =>
    obtain ⟨⟨first, e1⟩, hfirst, hf⟩ := of_bind hf
    obtain ⟨⟨later, e2⟩, hlater, hf⟩ := of_bind hf
    cases hf
    obtain ⟨rest, hemits, hbuf⟩ := hpush h hfirst
    obtain ⟨rest', hemits', hbuf'⟩ := ih hbuf hlater
    refine ⟨rest', ?_, hbuf'⟩
    have hall := hemits.append hemits'
    rwa [List.append_assoc, List.singleton_append, ← List.map_cons] at hall

theorem pushLeaves_spec (h : e.Buffers format true level rows) {entries : List Entry}
    (hp : e.pushLeaves d entries = .ok (out, e')) :
    EmitsTo d format true level (rows ++ entries.map entryRow) out e' := by
  refine feed_spec (fun {e e' rows x out} hbuf hpush => ?_) h hp
  rw [pushLeaf, if_pos hbuf.leaf_eq] at hpush
  exact pushEntry_spec hbuf rfl hpush

theorem pushChildren_spec (h : e.Buffers format false level rows) {children : List NodeSummary}
    (hp : e.pushChildren d children = .ok (out, e')) :
    EmitsTo d format false level (rows ++ children.map childRow) out e' := by
  refine feed_spec (fun {e e' rows x out} hbuf hpush => ?_) h hp
  rw [pushChild, if_neg (by simp [hbuf.leaf_eq])] at hpush
  exact pushEntry_spec hbuf rfl hpush

theorem finish_spec (h : e.Buffers format leaf level rows) (hf : e.finish d = .ok out) :
    Emits d format leaf level rows out [] := by
  obtain ⟨⟨emitted, e1⟩, hflush, hf⟩ := of_bind hf
  cases hf
  exact (flushCurrent_spec h hflush).1

end LevelEmitter

end Prolly

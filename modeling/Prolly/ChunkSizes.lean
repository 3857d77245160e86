import Prolly.Chunks
import Prolly.NodeSizer

/-!
# Prolly.ChunkSizes

What the emitter of a level is for, without its bookkeeping: `MeasuredEmitter` has an open node and
a boundary detector, and computes the encoded length of the node with each entry anew. It keeps no
upper bound and no running size.

`LevelEmitter` emits the same nodes. An emitter without its upper bound is simulated step by step,
since its sizer is exact (`exact_eq_measured`); the upper bound itself makes no difference
(`Chunks`). The bound only adds a way to fail, where it overflows a `u64`.
-/

namespace Prolly

open Emission (Emitter)
open Node (Row ofRows headerLen bodyLen)

/-! ### An emitter that measures -/

/-- An open node and the detector of its level. -/
structure MeasuredEmitter where
  current : Node
  detector : BoundaryDetector

namespace MeasuredEmitter

/-- The child count that goes with a row of the node. -/
def countOf (n : Node) (row : Row) : Option Nat := if n.leaf then none else some row.count

/-- The length of the node with one more row, in 64 bits. -/
def sizeWith (n : Node) (row : Row) : Result Nat := do
  EncodedNodeSizer.validateChildCount n.leaf (countOf n row)
  let len ← (n.push row.key row.val (countOf n row)).tryEncodedLen
  checkedU64 len

variable (d : Digests) (empty : Node) (hardMax : Nat) (chunking : ChunkingSpec)
  (e : MeasuredEmitter) (row : Row)

def close (n : Node) : Result EmittedNode :=
  if hardMax < n.toBytes.length then .error (.entryTooLarge n.toBytes.length hardMax)
  else .ok ⟨n.summary d, n⟩

/-- End the node before a row that does not fit. -/
def room (size : Nat) : Result (List EmittedNode × MeasuredEmitter × Nat) :=
  if ¬ e.current.isEmpty ∧ hardMax < size then do
    let node ← close d hardMax e.current
    let size ← sizeWith empty row
    return ([node], ⟨empty, e.detector.reset⟩, size)
  else .ok ([], e, size)

/-- The row's share of the encoding, if that is what chunks are measured by. -/
def share (measure : ChunkMeasure) (n : Node) (size : Nat) : Result Nat :=
  if measure = .encodedBytes then n.tryEncodedLen.map (size - ·) else .ok 0

/-- The part of a push before the boundary detector sees the row. -/
def fit : Result (List EmittedNode × MeasuredEmitter × Nat) := do
  let hardMax := chunking.hardMaxNodeBytes.toNat
  let size ← sizeWith e.current row
  let (flushed, e, size) ← e.room d empty hardMax row size
  if hardMax < size then .error (.entryTooLarge size hardMax)
  else
    let encodedEntryBytes ← share chunking.measure e.current size
    return (flushed, e, encodedEntryBytes)

/-- The part of a push from the boundary detector on. -/
def take (encodedEntryBytes : Nat) : Result (List EmittedNode × MeasuredEmitter) := do
  let (boundary, detector) ← e.detector.observe d row.key row.val encodedEntryBytes
  let current := e.current.push row.key row.val (countOf e.current row)
  if boundary then
    let node ← close d chunking.hardMaxNodeBytes.toNat current
    return ([node], ⟨empty, detector⟩)
  else return ([], ⟨current, detector⟩)

/-- One more row: make room, observe, and end the node at a boundary. -/
def push : Result (List EmittedNode × MeasuredEmitter) := do
  let (flushed, e, encodedEntryBytes) ← e.fit d empty chunking row
  let (emitted, e) ← e.take d empty chunking row encodedEntryBytes
  return (flushed ++ emitted, e)

def finish : Result (List EmittedNode) :=
  if e.current.isEmpty then .ok [] else (close d hardMax e.current).map ([·])

end MeasuredEmitter

open MeasuredEmitter (sizeWith close)

namespace LevelEmitter

/-- The emitter without its bookkeeping. -/
def measuring (e : LevelEmitter) : MeasuredEmitter := ⟨e.current, e.detector⟩

/-- The emitter of the level of `e0`, by the length of its nodes. -/
def measured (d : Digests) (e0 : LevelEmitter) :
    Emitter MeasuredEmitter Row EmittedNode Error where
  fresh := e0.measuring
  push := MeasuredEmitter.push d (newBuilderNode e0.format e0.leaf e0.level) e0.format.chunking
  finish := MeasuredEmitter.finish d e0.hardMax
  node rows := .of d (ofRows e0.format e0.leaf e0.level rows)

section Sizes

variable {d : Digests} {e0 e e' : LevelEmitter} {rows : List Row} {row : Row}
  {format : TreeFormat} {leaf : Bool} {level : Nat} {formatBytes : Bytes} {s : EncodedNodeSizer}

/-! ### The sizes are the lengths -/

/-- Sizes that fail only where they are not a `u64` are compared by their values. -/
theorem eq_of_ok_iff {x y : Result Nat} (hx : ∀ error, x = .error error → error = .invalidNode)
    (hy : ∀ error, y = .error error → error = .invalidNode) (h : ∀ n, x = .ok n ↔ y = .ok n) :
    x = y := by
  cases hxy : x with
  | ok n => exact ((h n).mp hxy).symm
  | error error =>
    cases hyx : y with
    | ok n =>
      rw [(h n).mpr hyx] at hxy
      cases hxy
    | error error' => rw [hx error hxy, hy error' hyx]

theorem checkedU64_error {n : Nat} {error : Error} (h : checkedU64 n = .error error) :
    error = .invalidNode := by
  unfold checkedU64 at h
  split at h <;> cases h
  rfl

theorem validateChildCount_eq (leaf : Bool) (count : Nat) :
    EncodedNodeSizer.validateChildCount leaf (if leaf then none else some count) =
      if leaf = true ∨ 0 < count then .ok () else .error .invalidNode := by
  cases leaf with
  | true => rfl
  | false => cases count <;> rfl

/-- The node of an open emitter with one more row. -/
theorem Buffers.push (h : e.Buffers format leaf level rows) (row : Row) :
    e.current.push row.key row.val (if leaf then none else some row.count) =
      ofRows format leaf level (rows ++ [row]) := by
  rw [h.current]
  cases leaf <;> simp [Node.push, ofRows]

theorem Buffers.countOf (h : e.Buffers format leaf level rows) (row : Row) :
    MeasuredEmitter.countOf e.current row = if leaf then none else some row.count := by
  rw [MeasuredEmitter.countOf, h.current]
  rfl

theorem Buffers.sizeWith (h : e.Buffers format leaf level rows)
    (hlayout : format.nodeLayout.BuiltIn) (hbytes : Node.formatBytes format = .ok formatBytes)
    (row : Row) :
    sizeWith e.current row =
      if leaf = true ∨ 0 < row.count then
        checkedU64 (headerLen formatBytes leaf level (rows ++ [row]).length +
          bodyLen format.nodeLayout leaf (rows ++ [row]))
      else .error .invalidNode := by
  have hleaf : e.current.leaf = leaf := by
    rw [h.current]
    rfl
  rw [MeasuredEmitter.sizeWith, h.countOf, hleaf, validateChildCount_eq, h.push,
    Node.tryEncodedLen_ofRows hlayout hbytes]
  split <;> rfl

/-- A sizer that is exact computes the length with one more row. -/
theorem sizeAfter_eq_sizeWith (h : e.Buffers e0.format e0.leaf e0.level rows)
    (hs : s.Exact e0.format formatBytes e0.leaf e0.level rows) (row : Row) :
    s.sizeAfter (rows.map Row.key).getLast? row.key row.val
      (if e0.leaf then none else some row.count) = sizeWith e.current row := by
  have hsizeAfter := EncodedNodeSizer.sizeAfter_eq (s := s) (hs.format_eq ▸ hs.builtIn)
    (rows.map Row.key).getLast? row
  have hok : ∀ n, s.sizeAfter (rows.map Row.key).getLast? row.key row.val
      (if s.leaf then none else some row.count) = .ok n ↔ _ := hs.sizeAfter
  rw [hs.leaf_eq] at hsizeAfter hok
  have hwith := h.sizeWith hs.builtIn hs.bytes row
  refine eq_of_ok_iff (fun error herror => ?_) (fun error herror => ?_) fun n => ?_
  · rw [hsizeAfter] at herror
    split at herror
    · exact checkedU64_error herror
    · cases herror
      rfl
  · rw [hwith] at herror
    split at herror
    · exact checkedU64_error herror
    · cases herror
      rfl
  · rw [hok, hwith, Node.tryEncodedLen_ofRows hs.builtIn hs.bytes]
    split
    · next hvalid =>
      rw [checkedU64_eq_ok, Except.ok.injEq]
      constructor
      · rintro ⟨-, hmax, rfl⟩
        exact ⟨rfl, hmax⟩
      · rintro ⟨rfl, hmax⟩
        exact ⟨hvalid, hmax, rfl⟩
    · next hvalid =>
      constructor
      · rintro ⟨h, -⟩
        exact absurd h hvalid
      · intro h
        cases h

/-- Rows that can be sized are sized exactly. -/
theorem sized_exact (h : e0.sized rows = .ok s) :
    ∃ formatBytes, s.Exact e0.format formatBytes e0.leaf e0.level rows := by
  induction rows using List.reverseRecOn generalizing s with
  | nil =>
    obtain ⟨s', hnew, h⟩ := of_bind h
    cases h
    exact EncodedNodeSizer.exact_new hnew
  | append_singleton rows row ih =>
    rw [sized_append] at h
    obtain ⟨s', hs', h⟩ := of_bind h
    obtain ⟨size, hsize, h⟩ := of_bind h
    cases h
    obtain ⟨formatBytes, hexact⟩ := ih hs'
    rw [← hexact.leaf_eq] at hsize
    exact ⟨formatBytes, hexact.pushSized ((hexact.sizeAfter size).mp hsize).2.2⟩

/-- An emitter that is open on the rows, with a sizer that is exact or rows that can be sized. -/
structure Sizing (e0 e : LevelEmitter) (rows : List Row) : Prop where
  opens : e0.Open e rows
  sizer : ∀ s ∈ e.sizer, ∃ formatBytes, s.Exact e0.format formatBytes e0.leaf e0.level rows
  sized : e.sizer = none → rows = [] ∨ ∃ s, e0.sized rows = .ok s

/-- What `exact_size_after` computes is the length. -/
theorem Sizing.exactSizeAfter (h : e0.Sizing e rows) (hfresh : e0.IsFresh) (hnone : e.sizer = none)
    (row : Row) :
    e.exactSizeAfter row.key row.val (e.countOf row) = sizeWith e.current row := by
  rw [h.opens.exactSizeAfter, countOf_eq h.opens]
  cases hsized : e0.sized rows with
  | ok s =>
    obtain ⟨formatBytes, hexact⟩ := sized_exact hsized
    rw [ok_bind, sizeAfter_eq_sizeWith h.opens.buffers hexact]
  | error error =>
    rcases h.sized hnone with rfl | ⟨s, hs⟩
    · -- not even the empty node has a size: the node with the row is longer
      obtain ⟨formatBytes, hbytes⟩ := Node.formatBytes_ok hfresh.valid
      have hnew : EncodedNodeSizer.new e0.format e0.leaf e0.level = .error error := by
        rw [LevelEmitter.sized] at hsized
        cases hnew : EncodedNodeSizer.new e0.format e0.leaf e0.level with
        | error error' =>
          rw [hnew] at hsized
          exact hsized
        | ok s =>
          rw [hnew] at hsized
          cases hsized
      rw [EncodedNodeSizer.new_eq_empty hfresh.valid hfresh.builtIn hbytes] at hnew
      have hempty : ¬ headerLen formatBytes e0.leaf e0.level 0 +
          bodyLen e0.format.nodeLayout e0.leaf [] ≤ u64Max := by
        intro hmax
        rw [checkedU64_eq_ok.mpr ⟨rfl, hmax⟩] at hnew
        cases hnew
      have hgrows : headerLen formatBytes e0.leaf e0.level 0 +
          bodyLen e0.format.nodeLayout e0.leaf [] ≤
          headerLen formatBytes e0.leaf e0.level 1 +
            bodyLen e0.format.nodeLayout e0.leaf [row] := by
        have hwidth : varintLen 0 ≤ varintLen 1 := varintLen_mono (by omega)
        have hbody : bodyLen e0.format.nodeLayout e0.leaf [] ≤
            bodyLen e0.format.nodeLayout e0.leaf [row] := by
          cases e0.format.nodeLayout with
          | offsetTable => exact Nat.succ_le_of_lt (Nat.zero_lt_of_lt (Node.lt_offsetTableLen ..))
          | prefixCompressed | plain | custom => exact Nat.zero_le _
        unfold headerLen
        omega
      have herror : error = .invalidNode := by
        rw [checkedU64, if_neg hempty] at hnew
        cases hnew
        rfl
      rw [h.opens.buffers.sizeWith hfresh.builtIn hbytes, error_bind, herror]
      split
      · rw [List.nil_append, List.length_singleton, checkedU64, if_neg (by omega)]
      · rfl
    · rw [hs] at hsized
      cases hsized

/-! ### Step by step -/

theorem IsFresh.sizing (hfresh : e0.IsFresh)
    (hsizer : ∀ s ∈ e0.sizer, ∃ formatBytes, s.Exact e0.format formatBytes e0.leaf e0.level []) :
    e0.Sizing e0 [] :=
  ⟨hfresh.opens, hsizer, fun _ => .inl rfl⟩

/-- A node that is flushed is closed. -/
theorem flushCurrent_eq_close (hne : e.current.isEmpty = false) :
    e.flushCurrent d =
      (close d e.hardMax e.current).map fun node => (some node, e.cleared) := by
  rw [flushCurrent, if_neg (by simp [hne]), close]
  split <;> rfl

/-- The state behind a row that has been made room for. -/
structure Fitted (e0 e : LevelEmitter) (rows : List Row) (row : Row) : Prop where
  opens : e0.Open e rows
  sizer : ∀ s ∈ e.sizer, ∃ formatBytes, s.Exact e0.format formatBytes e0.leaf e0.level
    (rows ++ [row])
  sized : e.sizer = none → ∃ s, e0.sized (rows ++ [row]) = .ok s

/-- A row whose size has been computed can be fitted. -/
theorem Sizing.sized_append (h : e0.Sizing e rows) (size : Nat)
    (hsize : e.exactSizeAfter row.key row.val (e.countOf row) = .ok size) :
    ∃ s, e0.sized (rows ++ [row]) = .ok s := by
  rw [h.opens.exactSizeAfter, countOf_eq h.opens] at hsize
  obtain ⟨s, hs, hsize⟩ := of_bind hsize
  rw [LevelEmitter.sized_append, hs, ok_bind, hsize]
  exact ⟨_, rfl⟩

/-- Room for a row whose size with the open node is `size`. -/
def roomed (d : Digests) (e0 e : LevelEmitter) (row : Row) (size : Nat) :
    Result (List EmittedNode × LevelEmitter × Nat) :=
  if ¬ e.current.isEmpty ∧ e0.hardMax < size then do
    let node ← close d e0.hardMax e.current
    let size ← sizeWith e0.current row
    return ([node], e0, size)
  else .ok ([], e, size)

/-- An emitter that has made room is the one it was, or a fresh one. -/
theorem roomed_eq_ok {flushed : List EmittedNode} {size size' : Nat}
    (hsize : sizeWith e.current row = .ok size)
    (h : roomed d e0 e row size = .ok (flushed, e', size')) :
    (e' = e ∨ e' = e0) ∧ sizeWith e'.current row = .ok size' := by
  unfold roomed at h
  split at h
  · obtain ⟨node, -, h⟩ := of_bind h
    obtain ⟨size'', hsize'', h⟩ := of_bind h
    cases h
    exact ⟨.inr rfl, hsize''⟩
  · cases h
    exact ⟨.inl rfl, hsize⟩

theorem room_measuring (hfresh : e0.IsFresh) (h : e0.Open e rows) (row : Row) (size : Nat) :
    e.measuring.room d (newBuilderNode e0.format e0.leaf e0.level) e0.hardMax row size =
      (roomed d e0 e row size).map fun r => (r.1, r.2.1.measuring, r.2.2) := by
  rw [MeasuredEmitter.room, roomed, ← hfresh.current]
  show (if ¬ e.current.isEmpty = true ∧ e0.hardMax < size then _ else _) = _
  split
  · show (close d e0.hardMax e.current).bind _ = Except.map _ (Except.bind _ _)
    cases close d e0.hardMax e.current with
    | error error => rfl
    | ok node =>
      show (sizeWith e0.current row).bind _ = Except.map _ (Except.bind _ _)
      cases sizeWith e0.current row with
      | error error => rfl
      | ok size =>
        show Except.ok ([node], (⟨e0.current, e.detector.reset⟩ : MeasuredEmitter), size) = _
        rw [h.detector]
        rfl
  · rfl

theorem capFlush_eq_close (hfresh : e0.IsFresh) (h : e0.Open e rows)
    (hne : e.current.isEmpty = false) :
    e.capFlush d =
      (close d e0.hardMax e.current).map fun node => ([node], e0) := by
  have hcap := h.hardMax_eq
  rw [capFlush, flushCurrent_eq_close hne, hcap]
  cases close d e0.hardMax e.current with
  | error error => rfl
  | ok node => exact congrArg (fun e => Except.ok ([node], e)) (h.cleared hfresh h.detector)

/-- The emitter behind a row that there is room for, and the row's share of the encoding. -/
def counted (e : LevelEmitter) (row : Row) (size : Nat) : LevelEmitter × Nat :=
  match e.sizer with
  | none => (e, 0)
  | some s =>
    ({ e with sizer := some (s.pushSized row.key row.val size), upperSize := size }, size - s.size)

/-- Making room with exact sizes. -/
theorem Sizing.fitExact_eq (h : e0.Sizing e rows) (hfresh : e0.IsFresh) (hstart : e0.Sizing e0 [])
    (row : Row) :
    e.fitExact d row.key row.val (e.countOf row) = (do
      let size ← sizeWith e.current row
      let (flushed, e, size) ← roomed d e0 e row size
      if e0.hardMax < size then .error (.entryTooLarge size e0.hardMax)
      else return (flushed, counted e row size)) := by
  have hcap := h.opens.hardMax_eq
  have hcount : e.countOf row = e0.countOf row := by
    rw [countOf_eq h.opens, countOf_eq hstart.opens]
  rw [fitExact]
  cases hsizer : e.sizer with
  | none =>
    have hnone0 := h.opens.sizer_none hsizer
    dsimp only
    rw [h.exactSizeAfter hfresh hsizer]
    cases sizeWith e.current row with
    | error error => rfl
    | ok size =>
      rw [ok_bind, ok_bind, roomUpper, roomed, hcap]
      split
      · next hover =>
        rw [capFlush_eq_close hfresh h.opens (by simpa using hover.1)]
        cases close d e0.hardMax e.current with
        | error error => rfl
        | ok node =>
          show ((e0.exactSizeAfter row.key row.val (e.countOf row)).bind _).bind _ =
            ((sizeWith e0.current row).bind _).bind _
          rw [hcount, hstart.exactSizeAfter hfresh hnone0]
          cases sizeWith e0.current row with
          | error error => rfl
          | ok size =>
            show _ = (if e0.hardMax < size then _ else _)
            rw [counted, hnone0]
            rfl
      · show (if e.hardMax < size then _ else _) = (if e0.hardMax < size then _ else _)
        rw [hcap, counted, hsizer]
  | some s =>
    have hreset := h.opens.sizer_some hsizer
    obtain ⟨_, hexact⟩ := h.sizer s hsizer
    obtain ⟨_, hexact0⟩ := hstart.sizer s.reset hreset
    have hkeys : e.current.keys.getLast? = (rows.map Row.key).getLast? := by
      rw [h.opens.buffers.current]
      rfl
    dsimp only
    rw [fitEncoded, hkeys, countOf_eq h.opens, sizeAfter_eq_sizeWith h.opens.buffers hexact]
    cases sizeWith e.current row with
    | error error => rfl
    | ok size =>
      rw [ok_bind, ok_bind, roomEncoded, roomed, hcap]
      split
      · next hover =>
        rw [capFlush_eq_close hfresh h.opens (by simpa using hover.1)]
        cases close d e0.hardMax e.current with
        | error error => rfl
        | ok node =>
          have hsize : s.reset.sizeAfter none row.key row.val
              (if e0.leaf then none else some row.count) = _ :=
            sizeAfter_eq_sizeWith hstart.opens.buffers hexact0 row
          show ((s.reset.sizeAfter none row.key row.val _).bind _).bind _ =
            ((sizeWith e0.current row).bind _).bind _
          rw [hsize]
          cases sizeWith e0.current row with
          | error error => rfl
          | ok size =>
            show (if e0.hardMax < size then _ else _) = (if e0.hardMax < size then _ else _)
            rw [counted, hreset]
      · show (if e.hardMax < size then _ else _) = (if e0.hardMax < size then _ else _)
        rw [hcap, counted, hsizer]

variable (hfresh : e0.IsFresh)
  (hmeasure : e0.sizer = none ↔ e0.format.chunking.measure ≠ .encodedBytes)

include hfresh hmeasure in
/-- Making room by exact sizes or by lengths comes to the same. -/
theorem Sizing.fit (h : e0.Sizing e rows) (hstart : e0.Sizing e0 []) (row : Row) :
    (∃ error, e.fitExact d row.key row.val (e.countOf row) = .error error ∧
      e.measuring.fit d (newBuilderNode e0.format e0.leaf e0.level) e0.format.chunking row =
        .error error) ∨
    ∃ flushed e1 n rows', e.fitExact d row.key row.val (e.countOf row) = .ok (flushed, e1, n) ∧
      e.measuring.fit d (newBuilderNode e0.format e0.leaf e0.level) e0.format.chunking row =
        .ok (flushed, e1.measuring, n) ∧ e0.Fitted e1 rows' row := by
  have hfit : e.measuring.fit d (newBuilderNode e0.format e0.leaf e0.level) e0.format.chunking row =
      (do
        let size ← sizeWith e.current row
        let (flushed, e, size) ← (roomed d e0 e row size).map fun r => (r.1, r.2.1.measuring, r.2.2)
        if e0.hardMax < size then .error (.entryTooLarge size e0.hardMax)
        else
          let encodedEntryBytes ← MeasuredEmitter.share e0.format.chunking.measure e.current size
          return (flushed, e, encodedEntryBytes)) := by
    simp only [← room_measuring hfresh h.opens]
    rfl
  rw [hfit, h.fitExact_eq hfresh hstart]
  cases hsize : sizeWith e.current row with
  | error error => exact .inl ⟨error, rfl, rfl⟩
  | ok size =>
    rw [ok_bind, ok_bind]
    cases hroom : roomed d e0 e row size with
    | error error => exact .inl ⟨error, rfl, rfl⟩
    | ok r =>
      obtain ⟨flushed, e1, size'⟩ := r
      obtain ⟨hstate, hsize'⟩ := roomed_eq_ok hsize hroom
      -- the state behind the flush is the one before or a fresh one
      obtain ⟨rows1, h1⟩ : ∃ rows1, e0.Sizing e1 rows1 := by
        rcases hstate with rfl | rfl
        · exact ⟨rows, h⟩
        · exact ⟨[], hstart⟩
      by_cases hbig : e0.hardMax < size'
      · exact .inl ⟨_, if_pos hbig, if_pos hbig⟩
      refine .inr ⟨flushed, (counted e1 row size').1, (counted e1 row size').2, rows1,
        if_neg hbig, (if_neg hbig).trans ?_, ?_⟩
      · cases hsizer : e1.sizer with
        | none =>
          have hother := hmeasure.mp (h1.opens.sizer_none hsizer)
          rw [MeasuredEmitter.share, if_neg hother, counted, hsizer]
          rfl
        | some s =>
          have hencoded : e0.format.chunking.measure = .encodedBytes :=
            not_not.mp fun hne => by simpa [h1.opens.sizer_some hsizer] using hmeasure.mpr hne
          obtain ⟨formatBytes, hexact⟩ := h1.sizer s hsizer
          have hlen : e1.current.tryEncodedLen = .ok s.size := by
            rw [h1.opens.buffers.current]
            exact hexact.encodedLen
          rw [MeasuredEmitter.share, if_pos hencoded, counted, hsizer]
          show (e1.current.tryEncodedLen.map _).bind _ = _
          rw [hlen]
          rfl
      · unfold counted
        split
        · next hsizer =>
          refine ⟨h1.opens, fun s hs => ?_, fun _ => h1.sized_append size' ?_⟩
          · rw [hsizer] at hs
            cases hs
          · rw [h1.exactSizeAfter hfresh hsizer, hsize']
        · next s hsizer =>
          obtain ⟨formatBytes, hexact⟩ := h1.sizer s hsizer
          refine ⟨⟨⟨h1.opens.buffers.format_eq, h1.opens.buffers.leaf_eq,
            h1.opens.buffers.level_eq, h1.opens.buffers.current⟩, h1.opens.detector,
            (h1.opens.sizer_some hsizer).symm⟩, fun s' hs => ?_, fun hnone => by cases hnone⟩
          cases hs
          rw [← sizeAfter_eq_sizeWith h1.opens.buffers hexact, ← hexact.leaf_eq] at hsize'
          exact ⟨formatBytes, hexact.pushSized ((hexact.sizeAfter size').mp hsize').2.2⟩

include hfresh in
/-- Taking a row by lengths. -/
theorem Fitted.take {rows : List Row} (h : e0.Fitted e rows row) (n : Nat)
    (hstart : e0.Sizing e0 []) :
    (∃ error, e.take d row.key row.val (e.countOf row) n = .error error ∧
      e.measuring.take d (newBuilderNode e0.format e0.leaf e0.level) e0.format.chunking row n =
        .error error) ∨
    ∃ out e' rows', e.take d row.key row.val (e.countOf row) n = .ok (out, e') ∧
      e.measuring.take d (newBuilderNode e0.format e0.leaf e0.level) e0.format.chunking row n =
        .ok (out, e'.measuring) ∧ e0.Sizing e' rows' := by
  have hcount : MeasuredEmitter.countOf e.measuring.current row = e.countOf row := by
    rw [countOf_eq h.opens]
    exact h.opens.buffers.countOf row
  have hcap : e.hardMax = e0.format.chunking.hardMaxNodeBytes.toNat := by
    rw [hardMax, h.opens.buffers.format_eq]
  cases hobserve : e.detector.observe d row.key row.val n with
  | error error =>
    refine .inl ⟨error, ?_, ?_⟩
    · rw [LevelEmitter.take, hobserve]
      rfl
    · rw [MeasuredEmitter.take]
      show (e.detector.observe d row.key row.val n).bind _ = _
      rw [hobserve]
      rfl
  | ok r =>
    obtain ⟨boundary, detector⟩ := r
    set e1 : LevelEmitter :=
      { e with detector, current := e.current.push row.key row.val (e.countOf row) } with he1
    have hreal : e.take d row.key row.val (e.countOf row) n =
        if boundary then (e1.flushCurrent d).bind fun r => .ok (r.1.toList, r.2)
        else .ok ([], e1) := by
      rw [LevelEmitter.take, hobserve]
      rfl
    have hmeasured : e.measuring.take d (newBuilderNode e0.format e0.leaf e0.level)
        e0.format.chunking row n =
        if boundary then (close d e.hardMax e1.current).bind fun node =>
          .ok ([node], ⟨newBuilderNode e0.format e0.leaf e0.level, detector⟩)
        else .ok ([], e1.measuring) := by
      rw [MeasuredEmitter.take, hcount, hcap]
      show (e.detector.observe d row.key row.val n).bind _ = _
      rw [hobserve]
      rfl
    cases boundary with
    | false =>
      rcases take_open h.opens hfresh hreal with ⟨-, hopen, -⟩ | ⟨hout, -⟩
      · exact .inr ⟨[], e1, rows ++ [row], hreal, hmeasured, hopen, h.sizer,
          fun hnone => .inr (h.sized hnone)⟩
      · cases hout
    | true =>
      have hne : e1.current.isEmpty = false := by simp [he1, Node.push, Node.isEmpty]
      have hclosed : e.take d row.key row.val (e.countOf row) n =
          (close d e.hardMax e1.current).map fun node => ([node], e1.cleared) := by
        rw [hreal, if_pos rfl, flushCurrent_eq_close hne]
        show ((close d e.hardMax e1.current).map _).bind _ = _
        cases close d e.hardMax e1.current <;> rfl
      rw [hmeasured, if_pos rfl]
      cases hclose : close d e.hardMax e1.current with
      | error error =>
        refine .inl ⟨error, ?_, rfl⟩
        rw [hclosed, hclose]
        rfl
      | ok node =>
        have htake : e.take d row.key row.val (e.countOf row) n = .ok ([node], e1.cleared) := by
          rw [hclosed, hclose]
          rfl
        have hstate : e1.cleared = e0 := by
          rcases take_open h.opens hfresh htake with ⟨hout, -⟩ | ⟨-, hstate⟩
          · cases hout
          · exact hstate
        refine .inr ⟨[node], e1.cleared, [], htake, ?_, hstate ▸ hstart⟩
        show Except.ok ([node], (⟨newBuilderNode e0.format e0.leaf e0.level, detector⟩ :
          MeasuredEmitter)) =
          .ok ([node], ⟨newBuilderNode e.format e.leaf e.level, detector⟩)
        rw [h.opens.buffers.format_eq, h.opens.buffers.leaf_eq, h.opens.buffers.level_eq]

theorem Sizing.erased (h : e0.Sizing e rows) : e0.Sizing e.erased rows :=
  ⟨h.opens.erased, h.sizer, h.sized⟩

include hfresh hmeasure in
/-- One push. -/
theorem Sizing.push (h : e0.Sizing e rows) (hstart : e0.Sizing e0 []) (row : Row) :
    (∃ error, (e0.exact d).push e row = .error error ∧
      (e0.measured d).push e.measuring row = .error error) ∨
    ∃ out e' rows', (e0.exact d).push e row = .ok (out, e') ∧
      (e0.measured d).push e.measuring row = .ok (out, e'.measuring) ∧ e0.Sizing e' rows' := by
  have hexact : (e0.exact d).push e row = e.pushExact d row.key row.val (e.countOf row) := rfl
  have hmeasured : (e0.measured d).push e.measuring row = e.measuring.push d
      (newBuilderNode e0.format e0.leaf e0.level) e0.format.chunking row := rfl
  rw [hexact, hmeasured, pushExact, MeasuredEmitter.push]
  rcases h.fit (d := d) hfresh hmeasure hstart row with
    ⟨error, hfit1, hfit2⟩ | ⟨flushed, e1, n, rows1, hfit1, hfit2, hfitted⟩
  · rw [hfit1, hfit2]
    exact .inl ⟨error, rfl, rfl⟩
  · have hcount : e.countOf row = e1.countOf row := by
      rw [countOf_eq h.opens, countOf_eq hfitted.opens]
    rw [hfit1, hfit2, ok_bind, ok_bind]
    dsimp only
    rw [hcount]
    rcases hfitted.take (d := d) hfresh n hstart with
      ⟨error, htake1, htake2⟩ | ⟨out, e', rows', htake1, htake2, hsizing⟩
    · rw [htake1, htake2]
      exact .inl ⟨error, rfl, rfl⟩
    · rw [htake1, htake2]
      exact .inr ⟨flushed ++ out, e'.erased, rows', rfl, rfl, hsizing.erased⟩

theorem Sizing.finish (h : e0.Sizing e rows) :
    (e0.exact d).finish e = (e0.measured d).finish e.measuring := by
  have hcap := h.opens.hardMax_eq
  show e.finish d = e.measuring.finish d e0.hardMax
  rw [LevelEmitter.finish, MeasuredEmitter.finish]
  cases hempty : e.current.isEmpty with
  | true =>
    rw [LevelEmitter.flushCurrent, if_pos hempty]
    exact (if_pos hempty).symm
  | false =>
    rw [flushCurrent_eq_close hempty, hcap, if_neg (show ¬ e.measuring.current.isEmpty = true by
        show ¬ e.current.isEmpty = true
        simp [hempty])]
    show ((close d e0.hardMax e.current).map _).bind _ =
      (close d e0.hardMax e.current).map _
    cases close d e0.hardMax e.current <;> rfl

include hfresh hmeasure in
/-- Without its upper bound, an emitter emits what one does that measures its nodes. -/
theorem exact_eq_measured (hstart : e0.Sizing e0 []) (rows : List Row) :
    (e0.exact d).complete e0.erased rows = (e0.measured d).complete e0.measuring rows :=
  Emitter.complete_congr (fun e m => m = e.measuring ∧ ∃ rows, e0.Sizing e rows)
    (by
      rintro e _ row - ⟨rfl, rows, h⟩
      rcases h.push (d := d) hfresh hmeasure hstart row with
        herror | ⟨out, e', rows', hexact, hmeasured, h'⟩
      · exact .inl herror
      · exact .inr ⟨out, e', _, hexact, hmeasured, rfl, rows', h'⟩)
    (by
      rintro e _ ⟨rfl, rows, h⟩
      exact h.finish)
    ⟨rfl, [], hstart.erased⟩

include hfresh hmeasure in
/-- Where no upper bound overflows, an emitter emits what one does that measures its nodes, and
fails where it fails. -/
theorem real_eq_measured (hstart : e0.Sizing e0 []) (hrows : ∀ row ∈ rows, Counted e0.leaf row)
    (hmax : e0.sizer = none →
      ∀ row ∈ rows, max e0.hardMax e0.upperSize + rowUpper e0.leaf row ≤ u64Max) :
    (e0.real d).complete e0 rows = (e0.measured d).complete e0.measuring rows :=
  Emitter.complete_congr
    (fun e m => m = e.measuring ∧ (∃ rows, e0.Tracks e rows) ∧ (∃ rows, e0.Sizing e.erased rows) ∧
      (e0.sizer = none → e.upperSize ≤ max e0.hardMax e0.upperSize))
    (by
      rintro e _ row hrow ⟨rfl, ⟨rows1, htracks⟩, ⟨rows2, hsizing⟩, hupper⟩
      have hadmits : e0.Admits e row := fun hnone => by
        have hroom := hmax hnone row hrow
        have hle := hupper hnone
        omega
      have hmeasured := hsizing.push (d := d) hfresh hmeasure hstart row
      rcases push_cases (d := d) hfresh htracks (hrows row hrow) hadmits with
        ⟨error, hreal, hexact⟩ | ⟨out, e', rows', hreal, hexact, htracks', hupper'⟩
      · rcases hmeasured with ⟨error', hexact', herror⟩ | ⟨_, _, _, hexact', -⟩
        · cases hexact.symm.trans hexact'
          exact .inl ⟨error, hreal, herror⟩
        · cases hexact.symm.trans hexact'
      · rcases hmeasured with ⟨error', hexact', -⟩ | ⟨out', e'', rows'', hexact', hpush, hsizing'⟩
        · cases hexact.symm.trans hexact'
        · cases hexact.symm.trans hexact'
          exact .inr ⟨out, e', _, hreal, hpush, rfl, ⟨rows', htracks'⟩, ⟨rows'', hsizing'⟩,
            fun hnone => (hupper' hnone).2⟩)
    (by
      rintro e _ ⟨rfl, -, ⟨rows2, hsizing⟩, -⟩
      have hfinish : (e0.exact d).finish e.erased = (e0.exact d).finish e := finish_erased d e
      exact (hsizing.finish.symm.trans hfinish).symm)
    ⟨rfl, ⟨[], hfresh.tracks⟩, ⟨[], hstart.erased⟩, fun _ => le_max_right _ _⟩

end Sizes

/-! ### Emitters of a level -/

section Levels

variable {d : Digests} {e0 : LevelEmitter} {format : TreeFormat} {leaf : Bool} {level : Nat}

/-- A level that counts encoded bytes has a sizer, and it is exact. -/
theorem new_sizing (hnew : new format leaf level = .ok e0) (hlevel : level ≤ u64Max) :
    (e0.sizer = none ↔ e0.format.chunking.measure ≠ .encodedBytes) ∧ e0.Sizing e0 [] := by
  have hfresh := new_isFresh hnew hlevel
  unfold new at hnew
  split at hnew
  · cases hnew
  obtain ⟨_, -, hnew⟩ := of_bind hnew
  split at hnew
  · cases hnew
  obtain ⟨sizer, hsizer, hnew⟩ := of_bind hnew
  obtain ⟨detector, -, hnew⟩ := of_bind hnew
  cases hnew
  unfold newSizer at hsizer
  split at hsizer
  · next hencoded =>
    obtain ⟨s, hs, rfl⟩ := map_eq_ok.mp hsizer
    refine ⟨by simp [hencoded], hfresh.sizing fun s' hs' => ?_⟩
    cases hs'
    exact EncodedNodeSizer.exact_new hs
  · next hother =>
    cases hsizer
    exact ⟨by simpa using hother, hfresh.sizing fun s hs => by cases hs⟩

theorem close_le {hardMax : Nat} {n : Node} {node : EmittedNode}
    (h : close d hardMax n = .ok node) : node.node.toBytes.length ≤ hardMax := by
  unfold close at h
  split at h
  · cases h
  · next hle =>
    cases h
    exact not_lt.mp hle

/-- No node that is emitted exceeds the cap. -/
theorem measured_le {rows : List Row} {m : MeasuredEmitter} {out : List EmittedNode}
    (h : (e0.measured d).complete m rows = .ok out) :
    ∀ n ∈ out, n.node.toBytes.length ≤ e0.hardMax := by
  refine Emitter.forall_of_complete ?_ ?_ h
  · intro m row out m' hpush
    obtain ⟨⟨flushed, m1, n⟩, hfit, hpush⟩ := of_bind hpush
    obtain ⟨⟨emitted, m2⟩, htake, hpush⟩ := of_bind hpush
    cases hpush
    refine List.forall_mem_append.mpr ⟨?_, ?_⟩
    · obtain ⟨size, -, hfit⟩ := of_bind hfit
      obtain ⟨⟨flushed', m3, size'⟩, hroom, hfit⟩ := of_bind hfit
      dsimp only at hfit
      split at hfit
      · cases hfit
      obtain ⟨_, -, hfit⟩ := of_bind hfit
      cases hfit
      unfold MeasuredEmitter.room at hroom
      split at hroom
      · obtain ⟨node, hclose, hroom⟩ := of_bind hroom
        obtain ⟨_, -, hroom⟩ := of_bind hroom
        cases hroom
        intro n hn
        rw [List.mem_singleton.mp hn]
        exact close_le hclose
      · cases hroom
        simp
    · obtain ⟨⟨boundary, detector⟩, -, htake⟩ := of_bind htake
      dsimp only at htake
      split at htake
      · obtain ⟨node, hclose, htake⟩ := of_bind htake
        cases htake
        intro n hn
        rw [List.mem_singleton.mp hn]
        exact close_le hclose
      · cases htake
        simp
  · intro m out hfinish
    show ∀ n ∈ out, n.node.toBytes.length ≤ e0.hardMax
    unfold measured MeasuredEmitter.finish at hfinish
    dsimp only at hfinish
    split at hfinish
    · cases hfinish
      simp
    · obtain ⟨node, hclose, rfl⟩ := map_eq_ok.mp hfinish
      intro n hn
      rw [List.mem_singleton.mp hn]
      exact close_le hclose

/-- The nodes that the emitter of a level emits are those of an emitter that measures the encoded
length of its node after every entry, and none exceeds the cap. The running upper bound adds no
failure but its own overflow: the bound is at most the cap, or that of the empty node, so it does
not overflow where these leave room for each entry. Under a cap close to `u64::MAX` it does not
where there is room for all entries together. -/
theorem emits_as_measured (hnew : new format leaf level = .ok e0) (hlevel : level ≤ 255)
    {rows : List Row} (hrows : ∀ row ∈ rows, Counted leaf row) :
    (∀ out, (e0.real d).complete e0 rows = .ok out →
      (e0.measured d).complete e0.measuring rows = .ok out ∧
        ∀ n ∈ out, n.node.toBytes.length ≤ format.chunking.hardMaxNodeBytes.toNat) ∧
    ((∀ row ∈ rows, max format.chunking.hardMaxNodeBytes.toNat (conservativeEmptyUpper format) +
        rowUpper leaf row ≤ u64Max) →
      (e0.real d).complete e0 rows = (e0.measured d).complete e0.measuring rows) ∧
    (Fits format leaf rows → ∀ out, (e0.measured d).complete e0.measuring rows = .ok out →
      (e0.real d).complete e0 rows = .ok out) := by
  have hlevel' : level ≤ u64Max := hlevel.trans (by decide)
  have hfresh := new_isFresh hnew hlevel'
  have hbuf := new_buffers hnew
  obtain ⟨hmeasure, hstart⟩ := new_sizing hnew hlevel'
  have hformat : format = e0.format := hbuf.format_eq.symm
  have hleaf : leaf = e0.leaf := hbuf.leaf_eq.symm
  subst hformat hleaf
  have hexact := exact_eq_measured (d := d) hfresh hmeasure hstart rows
  refine ⟨fun out hreal => ?_, fun hmax => ?_, fun hfits out hmeasured => ?_⟩
  · have hmeasured := hexact.symm.trans (complete_of_ok hfresh hfresh.tracks hrows hreal)
    exact ⟨hmeasured, measured_le hmeasured⟩
  · refine real_eq_measured hfresh hmeasure hstart hrows fun hnone row hrow => ?_
    have hupper : e0.upperSize = conservativeEmptyUpper e0.format := by
      rw [hfresh.upper, hnone]
      rfl
    rw [hupper]
    exact hmax row hrow
  · exact complete_of_admits hfresh hfresh.tracks hrows (hfresh.admitsAll hfits)
      (hexact.trans hmeasured)

/-- Two entries of which the cap admits one. -/
theorem emits_as_measured_capped : ∃ (d : Digests) (e0 : LevelEmitter) (out : List EmittedNode),
    new { chunking := { hardMaxNodeBytes := 80 }, nodeLayout := .plain } true 0 = .ok e0 ∧
    (e0.measured d).complete e0.measuring
      [⟨[1], [1, 2, 3, 4, 5, 6, 7, 8], 0⟩, ⟨[2], [1, 2, 3, 4, 5, 6, 7, 8], 0⟩] = .ok out ∧
    out.length = 2 ∧ ∀ n ∈ out, n.node.toBytes.length ≤ 80 := by
  let d : Digests := ⟨fun _ => .filled 0, fun _ _ => 0⟩
  have hrun :
      (match new { chunking := { hardMaxNodeBytes := 80 }, nodeLayout := .plain } true 0 with
      | .ok e0 =>
        match (e0.real d).complete e0
          [⟨[1], [1, 2, 3, 4, 5, 6, 7, 8], 0⟩, ⟨[2], [1, 2, 3, 4, 5, 6, 7, 8], 0⟩] with
        | .ok out => decide (out.length = 2)
        | .error _ => false
      | .error _ => false) = true := by decide +kernel
  split at hrun
  · next e0 hnew =>
    split at hrun
    · next out hout =>
      have hsame := (emits_as_measured (d := d) hnew (by decide) fun _ _ hleaf => by cases hleaf).1
        out hout
      exact ⟨d, e0, out, hnew, hsame.1, of_decide_eq_true hrun, hsame.2⟩
    · cases hrun
  · cases hrun

end Levels

end LevelEmitter

end Prolly

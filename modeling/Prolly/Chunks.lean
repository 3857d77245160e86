import Prolly.Lib.Emission
import Prolly.NodeSize

/-!
# Prolly.Chunks

Where the emitter of a level ends its nodes. Unless it counts encoded bytes, an emitter keeps an
upper bound of the size of its node and counts exactly only where the bound exceeds the cap. The
bound is not a function of the node: behind a node that the cap has ended, the next one starts with
the exact size of its first entry.

The bound makes no difference. `LevelEmitter.pushExact` does without it. What the emitter emits,
`pushExact` does (`complete_of_ok`), and as long as no bound overflows a `u64` the converse holds
(`complete_of_admits`). Without the bound an emitter is memoryless (`memoryless`), so the nodes of a
level are a local matter.
-/

namespace Prolly

open Emission (Emitter)
open List
open Node (Row ofRows)

variable {α : Type}

/-- Two results with the same image are the same error, or values with the same image. -/
theorem Result.map_eq_map {β γ : Type} {x : Result α} {y : Result β} {f : α → γ} {g : β → γ}
    (h : x.map f = y.map g) :
    (∃ error, x = .error error ∧ y = .error error) ∨ ∃ a b, x = .ok a ∧ y = .ok b ∧ f a = g b := by
  match x, y, h with
  | .error error, .error _, h =>
    cases h
    exact .inl ⟨error, rfl, rfl⟩
  | .ok a, .ok b, h => exact .inr ⟨a, b, rfl, rfl, Except.ok.inj h⟩
  | .error _, .ok _, h => cases h
  | .ok _, .error _, h => cases h

theorem Result.exists_of_isOk {ε : Type} {x : Except ε α} (h : x.isOk = true) : ∃ a, x = .ok a := by
  cases x with
  | error error => cases h
  | ok a => exact ⟨a, rfl⟩

namespace LevelEmitter

/-! ### Exact sizes -/

variable (d : Digests) (e : LevelEmitter) (key value : Bytes) (childCount : Option Nat)

def erased : LevelEmitter := { e with upperSize := 0 }

/-- `fit`, with sizes counted exactly. -/
def fitExact : Result (List EmittedNode × LevelEmitter × Nat) :=
  match e.sizer with
  | some sizer => e.fitEncoded d sizer key value childCount
  | none => do
      let encodedSize ← e.exactSizeAfter key value childCount
      let (flushed, e, encodedSize) ← e.roomUpper d key value childCount encodedSize
      if e.hardMax < encodedSize then .error (.entryTooLarge encodedSize e.hardMax)
      else return (flushed, e, 0)

/-- `push_entry_with`, with sizes counted exactly. -/
def pushExact : Result (List EmittedNode × LevelEmitter) := do
  let (flushed, e, encodedEntryBytes) ← e.fitExact d key value childCount
  let (emitted, e) ← e.take d key value childCount encodedEntryBytes
  return (flushed ++ emitted, e.erased)

def countOf (row : Row) : Option Nat := if e.leaf then none else some row.count

/-- The emitter of a level, on rows, with sizes counted exactly. -/
def exact (e0 : LevelEmitter) : Emitter LevelEmitter Row EmittedNode Error where
  fresh := e0.erased
  push e row := e.pushExact d row.key row.val (e.countOf row)
  finish e := e.finish d
  node rows := .of d (ofRows e0.format e0.leaf e0.level rows)

/-- The emitter of a level, on rows. -/
def real (e0 : LevelEmitter) : Emitter LevelEmitter Row EmittedNode Error where
  fresh := e0
  push e row := e.pushEntry d row.key row.val (e.countOf row)
  finish e := e.finish d
  node rows := .of d (ofRows e0.format e0.leaf e0.level rows)

/-! ### An emitter that is open on rows -/

section Exact

variable {d : Digests} {e0 e e' : LevelEmitter} {rows : List Row} {flushed : List EmittedNode}
  {n : Nat}

/-- A fresh emitter. -/
structure IsFresh (e0 : LevelEmitter) : Prop where
  current : e0.current = newBuilderNode e0.format e0.leaf e0.level
  detector : e0.detector.reset = e0.detector
  sizer : e0.sizer.map EncodedNodeSizer.reset = e0.sizer
  upper : e0.upperSize = emptyUpper e0.format e0.sizer
  valid : e0.format.validate = .ok ()
  builtIn : e0.format.nodeLayout.BuiltIn
  level : e0.level ≤ u64Max

theorem new_isFresh {format : TreeFormat} {leaf : Bool} {level : Nat}
    (h : new format leaf level = .ok e0) (hlevel : level ≤ u64Max) : e0.IsFresh := by
  unfold new at h
  split at h
  · cases h
  obtain ⟨_, hvalid, h⟩ := of_bind h
  split at h
  · cases h
  next hlayout =>
  have hbuiltIn : format.nodeLayout.BuiltIn := by
    cases hl : format.nodeLayout with
    | custom id parameters => exact absurd hl (hlayout id parameters)
    | _ => trivial
  obtain ⟨sizer, hsizer, h⟩ := of_bind h
  obtain ⟨detector, hdetector, h⟩ := of_bind h
  cases h
  refine ⟨rfl, ?_, ?_, rfl, hvalid, hbuiltIn, hlevel⟩
  · obtain ⟨_, -, hdetector⟩ := of_bind hdetector
    cases hdetector
    rfl
  · unfold newSizer at hsizer
    split at hsizer
    · obtain ⟨s, hs, hsizer⟩ := map_eq_ok.mp hsizer
      cases hsizer
      obtain ⟨_, -, hs⟩ := of_bind hs
      split at hs
      · cases hs
      obtain ⟨_, -, hs⟩ := of_bind hs
      obtain ⟨_, -, hs⟩ := of_bind hs
      cases hs
      rfl
    · cases hsizer
      rfl

/-- The emitter works on the level of `e0`, and its current node holds the rows. -/
structure Open (e0 e : LevelEmitter) (rows : List Row) : Prop where
  buffers : e.Buffers e0.format e0.leaf e0.level rows
  detector : e.detector.reset = e0.detector
  sizer : e.sizer.map EncodedNodeSizer.reset = e0.sizer

theorem IsFresh.opens (h : e0.IsFresh) : e0.Open e0 [] where
  buffers := ⟨rfl, rfl, rfl, by rw [h.current]; simp [newBuilderNode, ofRows]⟩
  detector := h.detector
  sizer := h.sizer

theorem Open.isEmpty (h : e0.Open e rows) : e.current.isEmpty = rows.isEmpty := h.buffers.isEmpty

/-- The node that an open emitter flushes. -/
theorem Open.flushCurrent {emitted : Option EmittedNode} (h : e0.Open e rows) (hne : rows ≠ [])
    (hf : e.flushCurrent d = .ok (emitted, e')) :
    emitted = some ((e0.exact d).node rows) ∧ e' = e.cleared := by
  unfold LevelEmitter.flushCurrent at hf
  rw [if_neg (by simpa [h.isEmpty] using hne)] at hf
  split at hf
  · cases hf
  · cases hf
    rw [h.buffers.current]
    exact ⟨rfl, rfl⟩

/-- A cleared emitter whose detector has been reset is fresh. -/
theorem Open.cleared (h : e0.Open e rows) (hfresh : e0.IsFresh) {detector : BoundaryDetector}
    (hdetector : detector = e0.detector) :
    { e.cleared with detector } = e0 := by
  have hformat := h.buffers.format_eq
  have hleaf := h.buffers.leaf_eq
  have hlevel := h.buffers.level_eq
  have hsizer := h.sizer
  have hcurrent := hfresh.current
  have hupper := hfresh.upper
  obtain ⟨format, leaf, level, current, det, sizer, upperSize⟩ := e
  obtain ⟨format0, leaf0, level0, current0, det0, sizer0, upperSize0⟩ := e0
  simp only at hformat hleaf hlevel hsizer hcurrent hupper hdetector
  subst hformat hleaf hlevel hcurrent hupper hdetector
  simp [LevelEmitter.cleared, hsizer]

theorem capFlush_open (h : e0.Open e rows) (hfresh : e0.IsFresh) (hne : rows ≠ [])
    (hf : e.capFlush d = .ok (flushed, e')) : flushed = [(e0.exact d).node rows] ∧ e' = e0 := by
  obtain ⟨⟨emitted, e1⟩, hflush, hf⟩ := of_bind hf
  cases hf
  obtain ⟨rfl, rfl⟩ := h.flushCurrent hne hflush
  exact ⟨rfl, h.cleared hfresh h.detector⟩

@[simp] theorem erased_sizer (e : LevelEmitter) : e.erased.sizer = e.sizer := rfl

/-- What an emitter is open on does not depend on its upper bound. -/
theorem Open.of_erased (h : e0.Open e rows) (heq : e'.erased = e.erased) : e0.Open e' rows := by
  obtain ⟨format, leaf, level, current, detector, sizer, upperSize⟩ := e
  obtain ⟨format', leaf', level', current', detector', sizer', upperSize'⟩ := e'
  cases heq
  exact ⟨⟨h.buffers.format_eq, h.buffers.leaf_eq, h.buffers.level_eq, h.buffers.current⟩,
    h.detector, h.sizer⟩

theorem Open.erased (h : e0.Open e rows) : e0.Open e.erased rows := h.of_erased rfl

theorem Open.sizer_none (h : e0.Open e rows) (hsizer : e.sizer = none) : e0.sizer = none := by
  rw [← h.sizer, hsizer]
  rfl

theorem Open.sizer_some {sizer : EncodedNodeSizer} (h : e0.Open e rows)
    (hsizer : e.sizer = some sizer) : e0.sizer = some sizer.reset := by
  rw [← h.sizer, hsizer]
  rfl

theorem Open.hardMax_eq (h : e0.Open e rows) : e.hardMax = e0.hardMax := by
  rw [hardMax, hardMax, h.buffers.format_eq]

/-- Making room keeps the open node, or ends it and goes on as a fresh emitter. -/
theorem fitExact_open {key value : Bytes} {childCount : Option Nat} (h : e0.Open e rows)
    (hfresh : e0.IsFresh) (hf : e.fitExact d key value childCount = .ok (flushed, e', n)) :
    (flushed = [] ∧ e0.Open e' rows ∧ e'.detector = e.detector) ∨
      (rows ≠ [] ∧ flushed = [(e0.exact d).node rows] ∧
        ∃ e1, e0.erased.fitExact d key value childCount = .ok ([], e1, n) ∧
          e1.erased = e'.erased) := by
  have hempty : e0.current.isEmpty = true := by
    rw [hfresh.current]
    rfl
  have hkeys : e0.current.keys.getLast? = none := by
    rw [hfresh.current]
    rfl
  unfold fitExact at hf
  split at hf
  · next sizer hsizer =>
    have hreset := h.sizer_some hsizer
    obtain ⟨size, -, hf⟩ := of_bind hf
    obtain ⟨⟨flushed', e1, sizer', size'⟩, hroom, hf⟩ := of_bind hf
    dsimp only at hf
    split at hf
    · cases hf
    next hfits =>
    cases hf
    unfold roomEncoded at hroom
    split at hroom
    · next hcap =>
      have hne : rows ≠ [] := by simpa [h.isEmpty] using hcap.1
      obtain ⟨⟨flushed', e2⟩, hflush, hroom⟩ := of_bind hroom
      obtain ⟨size', hsize', hroom⟩ := of_bind hroom
      cases hroom
      obtain ⟨rfl, hstate⟩ := capFlush_open h hfresh hne hflush
      obtain rfl := hstate.symm
      refine .inr ⟨hne, rfl, { e0.erased with
        sizer := some (sizer.reset.pushSized key value size'), upperSize := size' }, ?_, rfl⟩
      have hcurrent : e0.erased.current.keys.getLast? = none := hkeys
      rw [fitExact, erased_sizer, hreset]
      dsimp only
      rw [fitEncoded, hcurrent, hsize', ok_bind, roomEncoded, if_neg (by simp [erased, hempty]),
        ok_bind]
      exact if_neg hfits
    · cases hroom
      refine .inl ⟨rfl, ⟨⟨h.buffers.format_eq, h.buffers.leaf_eq, h.buffers.level_eq,
        h.buffers.current⟩, h.detector, ?_⟩, rfl⟩
      exact hreset.symm
  · next hsizer =>
    have hnone := h.sizer_none hsizer
    obtain ⟨size, -, hf⟩ := of_bind hf
    obtain ⟨⟨flushed', e1, size'⟩, hroom, hf⟩ := of_bind hf
    dsimp only at hf
    split at hf
    · cases hf
    next hfits =>
    cases hf
    unfold roomUpper at hroom
    split at hroom
    · next hcap =>
      have hne : rows ≠ [] := by simpa [h.isEmpty] using hcap.1
      obtain ⟨⟨flushed', e2⟩, hflush, hroom⟩ := of_bind hroom
      obtain ⟨size'', hsize', hroom⟩ := of_bind hroom
      cases hroom
      obtain ⟨rfl, hstate⟩ := capFlush_open h hfresh hne hflush
      obtain rfl := hstate.symm
      refine .inr ⟨hne, rfl, e0.erased, ?_, rfl⟩
      have hsized : e0.erased.exactSizeAfter key value childCount = .ok _ := hsize'
      rw [fitExact, erased_sizer, hnone]
      dsimp only
      rw [hsized, ok_bind, roomUpper, if_neg (by simp [erased, hempty]), ok_bind]
      exact if_neg hfits
    · cases hroom
      exact .inl ⟨rfl, h, rfl⟩

/-- Taking an entry keeps the node open, or ends it and leaves a fresh emitter. -/
theorem take_open {row : Row} {out : List EmittedNode} (h : e0.Open e rows)
    (hfresh : e0.IsFresh) (ht : e.take d row.key row.val (e.countOf row) n = .ok (out, e')) :
    (out = [] ∧ e0.Open e' (rows ++ [row]) ∧ e'.upperSize = e.upperSize) ∨
      (out = [(e0.exact d).node (rows ++ [row])] ∧ e' = e0) := by
  obtain ⟨⟨boundary, detector⟩, hobserve, ht⟩ := of_bind ht
  obtain ⟨o, hcounters, -, rfl⟩ := BoundaryDetector.observe_eq_ok hobserve
  have hreset : o.reset = e0.detector := by
    rw [← h.detector, BoundaryDetector.reset, BoundaryDetector.reset, hcounters.spec,
      hcounters.seed]
    rfl
  have hcurrent : e.current.push row.key row.val (e.countOf row) =
      ofRows e0.format e0.leaf e0.level (rows ++ [row]) := by
    rw [h.buffers.current, countOf, h.buffers.leaf_eq]
    cases e0.leaf <;> simp [Node.push, ofRows]
  have hopen : ∀ detector : BoundaryDetector, detector.reset = e0.detector →
      e0.Open { e with detector, current := e.current.push row.key row.val (e.countOf row) }
        (rows ++ [row]) := fun detector hdetector =>
    ⟨⟨h.buffers.format_eq, h.buffers.leaf_eq, h.buffers.level_eq, hcurrent⟩, hdetector, h.sizer⟩
  dsimp only at ht
  split at ht
  · obtain ⟨⟨emitted, e1⟩, hflush, ht⟩ := of_bind ht
    cases ht
    have hclosed := hopen o.reset hreset
    obtain ⟨rfl, rfl⟩ := hclosed.flushCurrent (by simp) hflush
    exact .inr ⟨rfl, hclosed.cleared hfresh hreset⟩
  · cases ht
    exact .inl ⟨rfl, hopen o hreset, rfl⟩

/-- The upper bound does not matter when a node is flushed. -/
theorem flushCurrent_erased (d : Digests) (e : LevelEmitter) :
    (e.erased.flushCurrent d).map (Prod.map id LevelEmitter.erased) =
      (e.flushCurrent d).map (Prod.map id LevelEmitter.erased) := by
  unfold LevelEmitter.flushCurrent
  show Except.map _ (if e.current.isEmpty then _ else if e.hardMax < e.current.toBytes.length then _
    else _) = _
  split
  · rfl
  · split <;> rfl

/-- The upper bound does not matter when an entry is taken. -/
theorem take_erased (d : Digests) (e : LevelEmitter) (key value : Bytes) (childCount : Option Nat)
    (n : Nat) :
    (e.erased.take d key value childCount n).map (Prod.map id LevelEmitter.erased) =
      (e.take d key value childCount n).map (Prod.map id LevelEmitter.erased) := by
  unfold take
  show Except.map _ ((e.detector.observe d key value n).bind _) = _
  cases e.detector.observe d key value n with
  | error error => rfl
  | ok r =>
    obtain ⟨boundary, detector⟩ := r
    cases boundary with
    | false => rfl
    | true =>
      have hflush := flushCurrent_erased d
        { e with detector, current := e.current.push key value childCount }
      show Except.map _ ((LevelEmitter.flushCurrent d (LevelEmitter.erased
          { e with detector, current := e.current.push key value childCount })).bind _) =
        Except.map _ ((LevelEmitter.flushCurrent d
          { e with detector, current := e.current.push key value childCount }).bind _)
      rcases Result.map_eq_map hflush with ⟨error, h1, h2⟩ | ⟨r1, r2, h1, h2, hsame⟩
      · rw [h1, h2]
      · rw [h1, h2]
        obtain ⟨hemitted, hstate⟩ := Prod.mk.inj hsame
        exact congrArg Except.ok (Prod.ext (congrArg Option.toList hemitted) hstate)

/-- An emitter that has emitted nothing is open on what it was fed. -/
theorem open_of_feed {e0 s : LevelEmitter} (hfresh : e0.IsFresh)
    (h : (e0.exact d).feed e0.erased rows = .ok ([], s)) : e0.Open s rows := by
  induction rows using List.reverseRecOn generalizing s with
  | nil =>
    cases h
    exact hfresh.opens.erased
  | append_singleton rows row ih =>
    obtain ⟨s1, hrows, hpush⟩ := Emitter.feed_concat_nil h
    have hopen := ih hrows
    obtain ⟨⟨flushed, e1, n⟩, hfit, hpush⟩ := of_bind hpush
    obtain ⟨⟨emitted, e2⟩, htake, hpush⟩ := of_bind hpush
    obtain ⟨hnil, rfl⟩ := Prod.mk.inj (Except.ok.inj hpush)
    obtain ⟨rfl, rfl⟩ := append_eq_nil_iff.mp hnil
    rcases fitExact_open hopen hfresh hfit with ⟨-, hopen1, -⟩ | ⟨-, hne, -⟩
    · have hcount : s1.countOf row = e1.countOf row := by
        rw [countOf, countOf, hopen.buffers.leaf_eq, hopen1.buffers.leaf_eq]
      rw [hcount] at htake
      rcases take_open hopen1 hfresh htake with ⟨-, hopen2, -⟩ | ⟨hne, -⟩
      · exact hopen2.erased
      · cases hne
    · cases hne

/-- Without an upper bound, an emitter is memoryless. -/
theorem memoryless (d : Digests) (hfresh : e0.IsFresh) : (e0.exact d).Memoryless where
  push := by
    intro rows s s' row out hrows hpush
    have hopen := open_of_feed hfresh hrows
    obtain ⟨⟨flushed, e1, n⟩, hfit, hpush⟩ := of_bind hpush
    obtain ⟨⟨emitted, e2⟩, htake, hpush⟩ := of_bind hpush
    cases hpush
    rcases fitExact_open hopen hfresh hfit with ⟨rfl, hopen1, -⟩ | ⟨hne, rfl, e3, hfit0, herased⟩
    · have hcount : s.countOf row = e1.countOf row := by
        rw [countOf, countOf, hopen.buffers.leaf_eq, hopen1.buffers.leaf_eq]
      rw [hcount] at htake
      rcases take_open hopen1 hfresh htake with ⟨rfl, -⟩ | ⟨rfl, rfl⟩
      · exact .inl rfl
      · exact .inr (.inl ⟨rfl, rfl⟩)
    · refine .inr (.inr ⟨hne, emitted, rfl, ?_⟩)
      have hcount : e0.erased.countOf row = s.countOf row := by
        rw [countOf, countOf, hopen.buffers.leaf_eq]
        rfl
      -- the emitter left by the flush and a fresh one differ in the upper bound only
      have hboth := take_erased d e3 row.key row.val (s.countOf row) n
      rw [herased, take_erased] at hboth
      rcases Result.map_eq_map hboth with ⟨error, herror, -⟩ | ⟨r, r0, htake', htake0, hsame⟩
      · rw [htake] at herror
        cases herror
      · rw [htake] at htake'
        cases htake'
        obtain ⟨hemitted, hstate⟩ := Prod.mk.inj hsame
        show e0.erased.pushExact d row.key row.val (e0.erased.countOf row) = _
        rw [pushExact, hcount, hfit0, ok_bind]
        show (e3.take d row.key row.val (s.countOf row) n).bind _ = _
        rw [htake0]
        exact congrArg Except.ok (Prod.ext hemitted.symm hstate.symm)
  finish := by
    intro rows s out hrows hne hfinish
    obtain ⟨⟨emitted, s'⟩, hflush, hfinish⟩ := of_bind hfinish
    cases hfinish
    rw [((open_of_feed hfresh hrows).flushCurrent hne hflush).1]
    rfl
  finish_fresh := by
    show (e0.erased.flushCurrent d).bind _ = _
    rw [LevelEmitter.flushCurrent,
      if_pos (by show e0.current.isEmpty = true; rw [hfresh.current]; rfl)]
    rfl

end Exact

/-! ### The upper bound makes no difference -/

def rowUpper (leaf : Bool) (row : Row) : Nat :=
  conservativeEntryUpper row.key row.val (if leaf then none else some row.count)

/-- No upper bound can overflow a `u64` while the rows are pushed. -/
def Fits (format : TreeFormat) (leaf : Bool) (rows : List Row) : Prop :=
  conservativeEmptyUpper format + (rows.map (rowUpper leaf)).sum ≤ u64Max

/-- A row of a parent level carries the number of entries below it. -/
def Counted (leaf : Bool) (row : Row) : Prop :=
  leaf = false → 0 < row.count ∧ row.count ≤ u64Max

section Bounds

variable {d : Digests} {e0 e e' : LevelEmitter} {rows : List Row} {row : Row}
  {sizer : EncodedNodeSizer} {out : List EmittedNode} {new more : List Row}
  {format : TreeFormat} {level : Nat}

theorem countOf_eq (h : e0.Open e rows) (row : Row) :
    e.countOf row = if e0.leaf then none else some row.count := by
  rw [countOf, h.buffers.leaf_eq]

theorem sizeRows_append (leaf : Bool) (s : EncodedNodeSizer) (previous : Option Bytes)
    (rows : List Row) (row : Row) :
    sizeRows leaf s previous (rows ++ [row]) = (do
      let s ← sizeRows leaf s previous rows
      let size ← s.sizeAfter ((rows.map Row.key).getLast?.or previous) row.key row.val
        (if leaf then none else some row.count)
      return s.pushSized row.key row.val size) := by
  induction rows generalizing s previous with
  | nil =>
    simp only [nil_append, sizeRows, ok_bind, map_nil, List.getLast?_nil, Option.none_or]
    rfl
  | cons first rows ih =>
    simp only [cons_append, sizeRows]
    cases s.sizeAfter previous first.key first.val (if leaf then none else some first.count) with
    | error error => rfl
    | ok size =>
      simp only [ok_bind, ih, map_cons]
      cases rows with
      | nil => rfl
      | cons second rows => simp [List.getLast?_cons]

/-- The rows of a node are sized as they are. -/
theorem sizeRows_ofRows (format : TreeFormat) (leaf : Bool) (level : Nat) (s : EncodedNodeSizer)
    (previous : Option Bytes) (rows : List Row) :
    sizeRows leaf s previous (Node.rows (ofRows format leaf level rows).keys
      (ofRows format leaf level rows).vals (ofRows format leaf level rows).childCounts) =
      sizeRows leaf s previous rows := by
  induction rows generalizing s previous with
  | nil => rfl
  | cons row rows ih =>
    cases leaf with
    | false =>
      show sizeRows false s previous (row :: Node.rows (rows.map _) (rows.map _) (rows.map _)) = _
      simp only [sizeRows, Bool.false_eq_true, if_false]
      cases s.sizeAfter previous row.key row.val (some row.count) with
      | error error => rfl
      | ok size => exact ih _ _
    | true =>
      show sizeRows true s previous
        (⟨row.key, row.val, 0⟩ :: Node.rows (rows.map _) (rows.map _) [])
        = _
      simp only [sizeRows, if_true]
      cases s.sizeAfter previous row.key row.val none with
      | error error => rfl
      | ok size => exact ih _ _

def sized (e0 : LevelEmitter) (rows : List Row) : Result EncodedNodeSizer := do
  let sizer ← EncodedNodeSizer.new e0.format e0.leaf e0.level
  sizeRows e0.leaf sizer none rows

theorem sized_append (e0 : LevelEmitter) (rows : List Row) (row : Row) :
    e0.sized (rows ++ [row]) = (do
      let s ← e0.sized rows
      let size ← s.sizeAfter (rows.map Row.key).getLast? row.key row.val
        (if e0.leaf then none else some row.count)
      return s.pushSized row.key row.val size) := by
  unfold sized
  cases EncodedNodeSizer.new e0.format e0.leaf e0.level with
  | error error => rfl
  | ok sizer => simp only [ok_bind, sizeRows_append, Option.or_none]

theorem Open.exactSizeAfter (h : e0.Open e rows) (key value : Bytes) (childCount : Option Nat) :
    e.exactSizeAfter key value childCount = (do
      let s ← e0.sized rows
      s.sizeAfter (rows.map Row.key).getLast? key value childCount) := by
  rw [LevelEmitter.exactSizeAfter, h.buffers.format_eq, h.buffers.leaf_eq, h.buffers.level_eq,
    h.buffers.current, sized]
  cases EncodedNodeSizer.new e0.format e0.leaf e0.level with
  | error error => rfl
  | ok sizer =>
    simp only [ok_bind, sizeRows_ofRows]
    rfl

/-- The upper bound of an open emitter is one. -/
structure Bounded (e0 e : LevelEmitter) (rows : List Row) (sizer : EncodedNodeSizer) : Prop where
  sized : e0.sized rows = .ok sizer
  payloadIn : sizer.PayloadIn
  builtIn : sizer.format.nodeLayout.BuiltIn
  leaf : sizer.leaf = e0.leaf
  upper : sizer.size ≤ e.upperSize
  grown : ∀ s, e0.sized [] = .ok s → s.size ≤ sizer.size

/-- The rows with one more. -/
theorem Bounded.sizeAfter (h : e0.Bounded e rows sizer) (hrow : Counted e0.leaf row)
    (hmax : sizer.size + rowUpper e0.leaf row ≤ u64Max) :
    ∃ size, sizer.sizeAfter (rows.map Row.key).getLast? row.key row.val
        (if e0.leaf then none else some row.count) = .ok size ∧
      size ≤ sizer.size + rowUpper e0.leaf row ∧
      ∀ e', size ≤ e'.upperSize → e0.Bounded e' (rows ++ [row])
          (sizer.pushSized row.key row.val size) := by
  have hupper : row.key.length + row.val.length + 64 ≤ rowUpper e0.leaf row := by
    unfold rowUpper conservativeEntryUpper
    cases e0.leaf <;> simp
  have hvalid : EncodedNodeSizer.validateChildCount sizer.leaf
      (if e0.leaf then none else some row.count) = .ok () := by
    rw [h.leaf]
    cases hleaf : e0.leaf with
    | true => rfl
    | false =>
      obtain ⟨n, hn⟩ := Nat.exists_eq_succ_of_ne_zero (hrow hleaf).1.ne'
      rw [hn]
      rfl
  have hcount : ∀ n ∈ (if e0.leaf then none else some row.count), n ≤ u64Max := by
    cases hleaf : e0.leaf with
    | true => simp
    | false =>
      rintro n ⟨⟩
      exact (hrow hleaf).2
  obtain ⟨size, hsize, hsize_lt, hsize_le, hpayload⟩ :=
    EncodedNodeSizer.sizeAfter_ok (rows.map Row.key).getLast? h.builtIn
      h.payloadIn hvalid hcount
        (show sizer.size + (row.key.length + row.val.length + 64) ≤ u64Max by omega)
  refine ⟨size, hsize, by omega, fun e' he' => ⟨?_, hpayload, h.builtIn, h.leaf, he', ?_⟩⟩
  · rw [sized_append, h.sized, ok_bind, hsize]
    rfl
  · intro s hs
    exact (h.grown s hs).trans hsize_lt.le

/-- The sizer of no rows. -/
theorem IsFresh.bounded (hfresh : e0.IsFresh) (hnone : e0.sizer = none)
    (hsizer : EncodedNodeSizer.new e0.format e0.leaf e0.level = .ok sizer) :
    e0.Bounded e0 [] sizer := by
  have h := EncodedNodeSizer.fresh_of_new hfresh.builtIn hfresh.level hsizer
  have hsized : e0.sized [] = .ok sizer := by
    rw [sized, hsizer]
    rfl
  refine ⟨hsized, h.payloadIn, h.format_eq ▸ h.builtIn, h.leaf_eq, ?_, fun s hs => ?_⟩
  · rw [hfresh.upper, hnone, h.size]
    exact h.upper
  · rw [Except.ok.inj (hs.symm.trans hsized)]

/-- Behind rows that are sized, the sizer of no rows is there and is smaller. -/
theorem Bounded.start (h : e0.Bounded e rows sizer) (hfresh : e0.IsFresh)
    (hnone : e0.sizer = none) : ∃ s, e0.Bounded e0 [] s ∧ s.size ≤ sizer.size := by
  obtain ⟨s, hs, -⟩ := of_bind h.sized
  have hbounded := hfresh.bounded hnone hs
  exact ⟨s, hbounded, h.grown s hbounded.sized⟩

theorem capFlush_erased (hne : e.current.isEmpty = false) : e.erased.capFlush d = e.capFlush d := by
  have hflush : e.erased.flushCurrent d = e.flushCurrent d := by
    have hopen : ¬ e.current.isEmpty = true := by simp [hne]
    rw [LevelEmitter.flushCurrent, LevelEmitter.flushCurrent, if_neg hopen,
      if_neg (show ¬ e.erased.current.isEmpty = true from hopen)]
    rfl
  rw [capFlush, capFlush, hflush]

/-- An emitter that counts encoded bytes has no use for its upper bound. -/
theorem fitEncoded_erased (sizer : EncodedNodeSizer) (key value : Bytes) (childCount : Option Nat) :
    e.erased.fitEncoded d sizer key value childCount =
        e.fitEncoded d sizer key value childCount := by
  unfold fitEncoded
  show (sizer.sizeAfter e.current.keys.getLast? key value childCount).bind _ = _
  cases sizer.sizeAfter e.current.keys.getLast? key value childCount with
  | error error => rfl
  | ok size =>
    simp only [Except.bind, ok_bind]
    unfold roomEncoded
    show Bind.bind (if ¬ e.current.isEmpty = true ∧ e.hardMax < size then _ else _) _ = _
    split
    · next hcap => rw [capFlush_erased (by simpa using hcap.1)]
    · rfl

/-- What making room leaves an emitter open on. -/
theorem fitExact_opens {key value : Bytes} {childCount : Option Nat} {flushed : List EmittedNode}
    {n : Nat} (h : e0.Open e rows) (hfresh : e0.IsFresh)
    (hf : e.fitExact d key value childCount = .ok (flushed, e', n)) :
    ∃ rows', e0.Open e' rows' := by
  rcases fitExact_open h hfresh hf with ⟨-, hopen, -⟩ | ⟨-, -, e1, hfit, heq⟩
  · exact ⟨rows, hopen⟩
  · rcases fitExact_open hfresh.opens.erased hfresh hfit with ⟨-, hopen, -⟩ | ⟨hne, -⟩
    · exact ⟨[], hopen.of_erased heq.symm⟩
    · exact absurd rfl hne

/-- An emitter that has come to be open on the rows. -/
structure Tracks (e0 e : LevelEmitter) (rows : List Row) : Prop where
  opens : e0.Open e rows
  bounded : e0.sizer = none → (e = e0 ∧ rows = []) ∨ ∃ sizer, e0.Bounded e rows sizer

theorem IsFresh.tracks (hfresh : e0.IsFresh) : e0.Tracks e0 [] :=
  ⟨hfresh.opens, fun _ => .inl ⟨rfl, rfl⟩⟩

/-- The row does not overflow the upper bound. -/
def Admits (e0 e : LevelEmitter) (row : Row) : Prop :=
  e0.sizer = none → e.upperSize + rowUpper e0.leaf row ≤ u64Max

theorem Tracks.sized (h : e0.Tracks e rows) (hfresh : e0.IsFresh) (hnone : e0.sizer = none)
    (hmax : e0.Admits e row) : ∃ sizer, e0.Bounded e rows sizer := by
  rcases h.bounded hnone with ⟨rfl, rfl⟩ | hbounded
  · have hupper : e.upperSize = conservativeEmptyUpper e.format := by
      rw [hfresh.upper, hnone]
      rfl
    have hadmits := hmax hnone
    obtain ⟨sizer, hsizer⟩ := EncodedNodeSizer.new_ok e.leaf hfresh.valid hfresh.builtIn
      hfresh.level (show conservativeEmptyUpper e.format ≤ u64Max by omega)
    exact ⟨sizer, hfresh.bounded hnone hsizer⟩
  · exact hbounded

/-- The flush before an entry, with and without an upper bound. -/
theorem roomUpper_cases (key value : Bytes) (childCount : Option Nat) (size : Nat)
    (h : e0.Open e rows) (hfresh : e0.IsFresh) :
    (∃ error, e.hardMax < size ∧ e.roomUpper d key value childCount size = .error error ∧
      e.erased.roomUpper d key value childCount size = .error error) ∨
    (∃ flushed size', e.hardMax < size ∧ e0.exactSizeAfter key value childCount = .ok size' ∧
      e.roomUpper d key value childCount size = .ok (flushed, e0, size') ∧
      e.erased.roomUpper d key value childCount size = .ok (flushed, e0, size')) ∨
    (e.roomUpper d key value childCount size = .ok ([], e, size) ∧
      e.erased.roomUpper d key value childCount size = .ok ([], e.erased, size)) := by
  by_cases hcap : ¬ e.current.isEmpty = true ∧ e.hardMax < size
  · rw [roomUpper, if_pos hcap, roomUpper,
      if_pos (show ¬ e.erased.current.isEmpty = true ∧ e.erased.hardMax < size from hcap),
      capFlush_erased (by simpa using hcap.1)]
    cases hflush : e.capFlush d with
    | error error => exact .inl ⟨error, hcap.2, rfl, rfl⟩
    | ok r =>
      obtain ⟨flushed, e1⟩ := r
      have hne : rows ≠ [] := by simpa [h.isEmpty] using hcap.1
      obtain ⟨-, hstate⟩ := capFlush_open h hfresh hne hflush
      obtain rfl := hstate.symm
      simp only [ok_bind]
      cases hsize : e0.exactSizeAfter key value childCount with
      | error error => exact .inl ⟨error, hcap.2, rfl, rfl⟩
      | ok size' => exact .inr (.inl ⟨flushed, size', hcap.2, rfl, rfl, rfl⟩)
  · rw [roomUpper, if_neg hcap, roomUpper,
      if_neg (show ¬ (¬ e.erased.current.isEmpty = true ∧ e.erased.hardMax < size) from hcap)]
    exact .inr (.inr ⟨rfl, rfl⟩)

/-- Making room by an upper bound or exactly comes to the same. -/
theorem fit_cases (hfresh : e0.IsFresh) (h : e0.Tracks e rows) (hrow : Counted e0.leaf row)
    (hmax : e0.Admits e row) :
    (∃ error, e.fit d row.key row.val (e.countOf row) = .error error ∧
      e.erased.fitExact d row.key row.val (e.countOf row) = .error error) ∨
    ∃ flushed e1 e2 n rows', e.fit d row.key row.val (e.countOf row) = .ok (flushed, e1, n) ∧
      e.erased.fitExact d row.key row.val (e.countOf row) = .ok (flushed, e2, n) ∧
      e1.erased = e2.erased ∧ e0.Open e1 rows' ∧
      (e0.sizer = none → (∃ sizer, e0.Bounded e1 (rows' ++ [row]) sizer) ∧
        e1.upperSize ≤ max e.upperSize e0.upperSize + rowUpper e0.leaf row ∧
        e1.upperSize ≤ e0.hardMax) := by
  cases hsizer : e.sizer with
  | some sizer =>
    have hsome : e0.sizer ≠ none := by simp [h.opens.sizer_some hsizer]
    have hfit : e.fit d row.key row.val (e.countOf row) =
        e.erased.fitExact d row.key row.val (e.countOf row) := by
      rw [fit, fitExact, erased_sizer, hsizer]
      exact (fitEncoded_erased sizer _ _ _).symm
    rw [hfit]
    cases hexact : e.erased.fitExact d row.key row.val (e.countOf row) with
    | error error => exact .inl ⟨error, rfl, rfl⟩
    | ok r =>
      obtain ⟨flushed, e1, n⟩ := r
      obtain ⟨rows', hopen⟩ := fitExact_opens h.opens.erased hfresh hexact
      exact .inr ⟨flushed, e1, e1, n, rows', rfl, rfl, rfl, hopen, fun hnone => absurd hnone hsome⟩
  | none =>
    have hnone := h.opens.sizer_none hsizer
    obtain ⟨sizer, hbounded⟩ := h.sized hfresh hnone hmax
    have hroom := hmax hnone
    have hupper_le := hbounded.upper
    have hcount := countOf_eq h.opens row
    have hcap := h.opens.hardMax_eq
    obtain ⟨size, hsize, hsize_le, hgrown⟩ := hbounded.sizeAfter hrow (by omega)
    have hexact : e.exactSizeAfter row.key row.val (e.countOf row) = .ok size := by
      rw [h.opens.exactSizeAfter, hbounded.sized, ok_bind, hcount, hsize]
    have hupper :
      checkedU64 (e.upperSize + conservativeEntryUpper row.key row.val (e.countOf row)) =
        .ok (e.upperSize + rowUpper e0.leaf row) := by
      rw [hcount]
      exact checkedU64_eq_ok.mpr ⟨rfl, by show e.upperSize + rowUpper e0.leaf row ≤ u64Max; omega⟩
    have hfit : e.fit d row.key row.val (e.countOf row) =
        if e.upperSize + rowUpper e0.leaf row ≤ e.hardMax then
          .ok ([], { e with upperSize := e.upperSize + rowUpper e0.leaf row }, 0)
        else do
          let (flushed, e1, size) ← e.roomUpper d row.key row.val (e.countOf row) size
          if e1.hardMax < size then .error (.entryTooLarge size e1.hardMax)
          else return (flushed, { e1 with upperSize := size }, 0) := by
      have hfitUpper : e.fit d row.key row.val (e.countOf row) =
          e.fitUpper d row.key row.val (e.countOf row) := by rw [fit, hsizer]
      rw [hfitUpper]
      show (checkedU64 _).bind _ = _
      rw [hupper]
      show (if _ then _ else (e.exactSizeAfter _ _ _).bind _) = _
      rw [hexact]
      rfl
    have hfitExact : e.erased.fitExact d row.key row.val (e.countOf row) = (do
        let (flushed, e1, size) ← e.erased.roomUpper d row.key row.val (e.countOf row) size
        if e1.hardMax < size then .error (.entryTooLarge size e1.hardMax)
        else return (flushed, e1, 0)) := by
      have hnosizer : e.erased.sizer = none := hsizer
      rw [fitExact, hnosizer]
      show (e.exactSizeAfter _ _ _).bind _ = _
      rw [hexact]
      rfl
    rw [hfit, hfitExact]
    rcases roomUpper_cases (d := d) row.key row.val (e.countOf row) size h.opens hfresh with
      ⟨error, hover, hroom1, hroom2⟩ | ⟨flushed, size', hover, hexact', hroom1, hroom2⟩ |
        ⟨hroom1, hroom2⟩
    · rw [if_neg (by omega), hroom1, hroom2]
      exact .inl ⟨error, rfl, rfl⟩
    · -- the node is flushed, and the row is sized anew
      rw [if_neg (by omega), hroom1, hroom2, ok_bind, ok_bind]
      obtain ⟨sizer0, hbounded0, hstart⟩ := hbounded.start hfresh hnone
      have hupper0 := hbounded0.upper
      obtain ⟨size'', hsize', hsize_le', hgrown'⟩ := hbounded0.sizeAfter hrow (by omega)
      rw [hfresh.opens.exactSizeAfter, hbounded0.sized, ok_bind, hcount, hsize'] at hexact'
      obtain rfl := Except.ok.inj hexact'
      by_cases hbig : e0.hardMax < size''
      · exact .inl ⟨.entryTooLarge size'' e0.hardMax, if_pos hbig, if_pos hbig⟩
      · refine .inr ⟨flushed, { e0 with upperSize := size'' }, e0, 0, [], if_neg hbig, if_neg hbig,
          rfl, hfresh.opens.of_erased rfl, fun _ => ⟨⟨_, hgrown' _ le_rfl⟩, ?_, not_lt.mp hbig⟩⟩
        show size'' ≤ _
        omega
    · rw [hroom1, hroom2, ok_bind, ok_bind]
      by_cases hfits : e.upperSize + rowUpper e0.leaf row ≤ e.hardMax
      · rw [if_pos hfits]
        refine .inr ⟨[], _, e.erased, 0, rows, rfl, if_neg (show ¬ e.hardMax < size by omega), rfl,
          h.opens.of_erased rfl, fun _ => ⟨⟨_, hgrown _ (by dsimp only; omega)⟩, ?_, hcap ▸ hfits⟩⟩
        show e.upperSize + rowUpper e0.leaf row ≤ _
        omega
      · rw [if_neg hfits]
        by_cases hbig : e.hardMax < size
        · exact .inl ⟨.entryTooLarge size e.hardMax, if_pos hbig, if_pos hbig⟩
        · refine .inr ⟨[], { e with upperSize := size }, e.erased, 0, rows, if_neg hbig,
            if_neg hbig,
            rfl, h.opens.of_erased rfl, fun _ => ⟨⟨_, hgrown _ le_rfl⟩, ?_, hcap ▸ not_lt.mp hbig⟩⟩
          show size ≤ _
          omega

/-- A push by an upper bound or exactly comes to the same. -/
theorem push_cases (hfresh : e0.IsFresh) (h : e0.Tracks e rows) (hrow : Counted e0.leaf row)
    (hmax : e0.Admits e row) :
    (∃ error, (e0.real d).push e row = .error error ∧
      (e0.exact d).push e.erased row = .error error) ∨
    ∃ out e' rows', (e0.real d).push e row = .ok (out, e') ∧
      (e0.exact d).push e.erased row = .ok (out, e'.erased) ∧ e0.Tracks e' rows' ∧
      (e0.sizer = none → e'.upperSize ≤ max e.upperSize e0.upperSize + rowUpper e0.leaf row ∧
        e'.upperSize ≤ max e0.hardMax e0.upperSize) := by
  have hreal : (e0.real d).push e row = e.pushEntry d row.key row.val (e.countOf row) := rfl
  have hexact : (e0.exact d).push e.erased row =
      e.erased.pushExact d row.key row.val (e.countOf row) := rfl
  rw [hreal, hexact, pushEntry, pushExact]
  rcases fit_cases (d := d) hfresh h hrow hmax with
    ⟨error, hfit1, hfit2⟩ | ⟨flushed, e1, e2, n, rows', hfit1, hfit2, herased, hopen, hbound⟩
  · rw [hfit1, hfit2]
    exact .inl ⟨error, rfl, rfl⟩
  · have hcount : e.countOf row = e1.countOf row := by
      rw [countOf_eq h.opens, countOf_eq hopen]
    have htakes := take_erased d e2 row.key row.val (e.countOf row) n
    rw [← herased, take_erased] at htakes
    rw [hfit1, hfit2, ok_bind, ok_bind]
    dsimp only
    rcases Result.map_eq_map htakes with
      ⟨error, htake1, htake2⟩ | ⟨⟨emitted, e'⟩, ⟨emitted2, e3⟩, htake1, htake2, hsame⟩
    · rw [htake1, htake2]
      exact .inl ⟨error, rfl, rfl⟩
    · obtain ⟨rfl, hstate⟩ : emitted = emitted2 ∧ e'.erased = e3.erased := Prod.mk.inj hsame
      rw [htake1, htake2]
      rw [hcount] at htake1
      have htracks : ∃ rows', e0.Tracks e' rows' ∧ (e0.sizer = none →
          e'.upperSize ≤ max e.upperSize e0.upperSize + rowUpper e0.leaf row ∧
            e'.upperSize ≤ max e0.hardMax e0.upperSize) := by
        rcases take_open hopen hfresh htake1 with ⟨-, hopen', hupper⟩ | ⟨-, rfl⟩
        · refine ⟨rows' ++ [row], ⟨hopen', fun hnone => ?_⟩, fun hnone => ?_⟩
          · obtain ⟨⟨sizer, hsizer⟩, -⟩ := hbound hnone
            exact .inr ⟨sizer, hsizer.sized, hsizer.payloadIn, hsizer.builtIn, hsizer.leaf,
              hupper ▸ hsizer.upper, hsizer.grown⟩
          · rw [hupper]
            exact ⟨(hbound hnone).2.1, (hbound hnone).2.2.trans (le_max_left _ _)⟩
        · exact ⟨[], hfresh.tracks, fun _ => ⟨by omega, le_max_right _ _⟩⟩
      obtain ⟨rows'', htracks, hupper⟩ := htracks
      refine .inr ⟨flushed ++ emitted, e', rows'', rfl, ?_, htracks, hupper⟩
      show Except.ok (flushed ++ emitted, e3.erased) = _
      rw [hstate]

/-- A push that succeeds has not overflowed the upper bound. -/
theorem admits_of_push (h : e0.Open e rows) (hpush : (e0.real d).push e row = .ok (out, e')) :
    e0.Admits e row := by
  intro hnone
  have hsizer : e.sizer = none := by
    have hreset := h.sizer
    rw [hnone] at hreset
    simpa using hreset
  obtain ⟨r, hfit, -⟩ := of_bind hpush
  rw [fit, hsizer] at hfit
  obtain ⟨upper, hupper, -⟩ := of_bind hfit
  have hle := (checkedU64_eq_ok.mp hupper).2
  rwa [countOf_eq h] at hle

/-! ### Loops -/

/-- A loop of pushes, where it succeeds. -/
theorem feed_of_ok (hfresh : e0.IsFresh) (h : e0.Tracks e rows)
    (hnew : ∀ row ∈ new, Counted e0.leaf row) (hfeed : (e0.real d).feed e new = .ok (out, e')) :
    (e0.exact d).feed e.erased new = .ok (out, e'.erased) ∧ (∃ rows', e0.Tracks e' rows') ∧
      (e0.sizer = none → e'.upperSize ≤
        max e.upperSize e0.upperSize + (new.map (rowUpper e0.leaf)).sum) := by
  induction new generalizing e rows out with
  | nil =>
    cases hfeed
    exact ⟨rfl, ⟨rows, h⟩, fun _ => by simp⟩
  | cons row new ih =>
    obtain ⟨⟨out1, e1⟩, hpush, hfeed⟩ := of_bind hfeed
    obtain ⟨⟨out2, e2⟩, hrest, hfeed⟩ := map_eq_ok.mp hfeed
    cases hfeed
    rcases push_cases (d := d) hfresh h (hnew row mem_cons_self) (admits_of_push h.opens hpush)
      with ⟨error, herror, -⟩ | ⟨out', e1', rows', hpush', hexact, htracks, hupper⟩
    · rw [hpush] at herror
      cases herror
    · rw [hpush] at hpush'
      cases hpush'
      obtain ⟨hfeed', htracks', hupper'⟩ :=
        ih htracks (fun row hrow => hnew row (.tail _ hrow)) hrest
      refine ⟨?_, htracks', fun hnone => ?_⟩
      · rw [Emitter.feed, hexact]
        show ((e0.exact d).feed e1.erased new).map _ = _
        rw [hfeed']
        rfl
      · have hfirst := (hupper hnone).1
        have hlater := hupper' hnone
        rw [map_cons, sum_cons]
        omega

/-- The rows to come do not overflow the upper bound. -/
def AdmitsAll (e0 e : LevelEmitter) (new : List Row) : Prop :=
  e0.sizer = none →
    max e.upperSize e0.upperSize + (new.map (rowUpper e0.leaf)).sum ≤ u64Max

theorem AdmitsAll.suffix (h : e0.AdmitsAll e (rows ++ more)) : e0.AdmitsAll e more := by
  intro hnone
  have hall := h hnone
  rw [map_append, sum_append] at hall
  omega

theorem IsFresh.admitsAll (hfresh : e0.IsFresh) (h : Fits e0.format e0.leaf rows) :
    e0.AdmitsAll e0 rows := by
  intro hnone
  have hupper : e0.upperSize = conservativeEmptyUpper e0.format := by
    rw [hfresh.upper, hnone]
    rfl
  rw [max_self, hupper]
  exact h

/-- A loop of pushes, where no upper bound overflows. -/
theorem feed_of_admits {s : LevelEmitter} (hfresh : e0.IsFresh) (h : e0.Tracks e rows)
    (hnew : ∀ row ∈ new, Counted e0.leaf row) (hmax : e0.AdmitsAll e (new ++ more))
    (hfeed : (e0.exact d).feed e.erased new = .ok (out, s)) :
    ∃ e', (e0.real d).feed e new = .ok (out, e') ∧ e'.erased = s ∧ e0.AdmitsAll e' more := by
  induction new generalizing e rows out with
  | nil =>
    cases hfeed
    exact ⟨e, rfl, rfl, hmax⟩
  | cons row new ih =>
    obtain ⟨⟨out1, s1⟩, hpush, hfeed⟩ := of_bind hfeed
    obtain ⟨⟨out2, s2⟩, hrest, hfeed⟩ := map_eq_ok.mp hfeed
    cases hfeed
    have hadmits : e0.Admits e row := by
      intro hnone
      have := hmax hnone
      rw [cons_append, map_cons, sum_cons] at this
      omega
    rcases push_cases (d := d) hfresh h (hnew row mem_cons_self) hadmits
      with ⟨error, -, herror⟩ | ⟨out', e1, rows', hreal, hpush', htracks, hupper⟩
    · rw [hpush] at herror
      cases herror
    · rw [hpush] at hpush'
      cases hpush'
      have hmax' : e0.AdmitsAll e1 (new ++ more) := by
        intro hnone
        have hall := hmax hnone
        have hle := (hupper hnone).1
        rw [cons_append, map_cons, sum_cons] at hall
        omega
      obtain ⟨e', hfeed', herased, hmore⟩ :=
        ih htracks (fun row hrow => hnew row (.tail _ hrow)) hmax' hrest
      refine ⟨e', ?_, herased, hmore⟩
      rw [Emitter.feed, hreal]
      show ((e0.real d).feed e1 new).map _ = _
      rw [hfeed']
      rfl

theorem finish_erased (d : Digests) (e : LevelEmitter) : e.erased.finish d = e.finish d := by
  unfold finish
  rcases Result.map_eq_map (flushCurrent_erased d e) with
    ⟨error, h1, h2⟩ | ⟨r1, r2, h1, h2, hsame⟩
  · rw [h1, h2]
  · rw [h1, h2]
    exact congrArg (fun o : Option EmittedNode => Except.ok o.toList) (Prod.mk.inj hsame).1

/-- All nodes of a run, where it succeeds. -/
theorem complete_of_ok (hfresh : e0.IsFresh) (h : e0.Tracks e rows)
    (hnew : ∀ row ∈ new, Counted e0.leaf row) (hcomplete : (e0.real d).complete e new = .ok out) :
    (e0.exact d).complete e.erased new = .ok out := by
  obtain ⟨⟨out1, e'⟩, hfeed, hcomplete⟩ := of_bind hcomplete
  rw [Emitter.complete, (feed_of_ok hfresh h hnew hfeed).1]
  show ((e'.erased).finish d).map _ = _
  rw [finish_erased]
  exact hcomplete

/-- All nodes of a run, where no upper bound overflows. -/
theorem complete_of_admits (hfresh : e0.IsFresh) (h : e0.Tracks e rows)
    (hnew : ∀ row ∈ new, Counted e0.leaf row) (hmax : e0.AdmitsAll e new)
    (hcomplete : (e0.exact d).complete e.erased new = .ok out) :
    (e0.real d).complete e new = .ok out := by
  obtain ⟨⟨out1, s⟩, hfeed, hcomplete⟩ := of_bind hcomplete
  rw [← append_nil new] at hmax
  obtain ⟨e', hfeed', rfl, -⟩ := feed_of_admits hfresh h hnew hmax hfeed
  rw [Emitter.complete, hfeed']
  show (e'.finish d).map _ = _
  rw [← finish_erased]
  exact hcomplete

/-- A loop of pushes that add one row each. -/
theorem feed_eq_real {α : Type} {row : α → Row}
    {push : LevelEmitter → α → Result (List EmittedNode × LevelEmitter)} {leaf : Bool}
    (hpush : ∀ e x, e.leaf = leaf → push e x = (e0.real d).push e (row x))
    (h : e.Buffers format leaf level rows) (xs : List α) :
    LevelEmitter.feed push e xs = (e0.real d).feed e (xs.map row) := by
  induction xs generalizing e rows with
  | nil => rfl
  | cons x xs ih =>
    rw [LevelEmitter.feed, map_cons, Emitter.feed, hpush e x h.leaf_eq]
    cases hx : (e0.real d).push e (row x) with
    | error error => rfl
    | ok r =>
      obtain ⟨out, e'⟩ := r
      have hcount : (e.countOf (row x)).isSome = !leaf := by
        rw [countOf, h.leaf_eq]
        cases leaf <;> rfl
      obtain ⟨rest, -, hbuf⟩ := pushEntry_spec h hcount hx
      show (LevelEmitter.feed push e' xs).bind _ = ((e0.real d).feed e' (xs.map row)).map _
      rw [ih hbuf]
      cases (e0.real d).feed e' (xs.map row) <;> rfl

theorem pushLeaves_eq (e0 : LevelEmitter) (h : e.Buffers format true level rows)
    (entries : List Entry) :
    e.pushLeaves d entries = (e0.real d).feed e (entries.map entryRow) := by
  refine feed_eq_real (fun e entry hleaf => ?_) h entries
  rw [pushLeaf, if_pos hleaf]
  show _ = e.pushEntry d entry.1 entry.2 (e.countOf (entryRow entry))
  rw [countOf, if_pos hleaf]

end Bounds

end LevelEmitter

end Prolly

import Mathlib.Data.List.Sort
import Prolly.Basic

/-!
# Prolly.ChangedSpans

Normalization of changed spans (`normalize_changed_spans` in `mod.rs`). A span goes from its start
up to its end, which does not belong to it, or up to no end at all. Empty spans are dropped, the
others are sorted by start, and a span that starts inside or right at the end of the last one
extends that one.
-/

namespace Prolly

open List

/-- `ChangedSpan`; `stop` is its `end`. -/
structure ChangedSpan where
  start : Bytes
  stop : Option Bytes
  deriving DecidableEq

/-- `changed_span_is_valid`. -/
def changedSpanIsValid (span : ChangedSpan) : Bool :=
  match span.stop with
  | none => true
  | some stop => span.start < stop

/-- `span_starts_before_or_at_end`. -/
def spanStartsBeforeOrAtEnd (start : Bytes) : Option Bytes → Bool
  | none => true
  | some stop => start ≤ stop

/-- `max_span_end`. -/
def maxSpanEnd : Option Bytes → Option Bytes → Option Bytes
  | some left, some right => if left < right then some right else some left
  | _, _ => none

/-- `compare_span_end`. -/
def compareSpanEnd : Option Bytes → Option Bytes → Ordering
  | some left, some right => compareOfLessAndEq left right
  | some _, none => .lt
  | none, some _ => .gt
  | none, none => .eq

def compareSpans (left right : ChangedSpan) : Ordering :=
  (compareOfLessAndEq left.start right.start).then (compareSpanEnd left.stop right.stop)

/-- The loop, from the last normalized span on: those before it do not change any more. -/
def mergeSpans : ChangedSpan → List ChangedSpan → List ChangedSpan
  | last, [] => [last]
  | last, span :: spans =>
    if spanStartsBeforeOrAtEnd span.start last.stop then
      mergeSpans { last with stop := maxSpanEnd last.stop span.stop } spans
    else last :: mergeSpans span spans

/-- `normalize_changed_spans`. -/
def normalizeChangedSpans (spans : List ChangedSpan) : List ChangedSpan :=
  match (spans.filter changedSpanIsValid).insertionSort
    fun a b => (compareSpans a b).isLE = true with
  | [] => []
  | span :: spans => mergeSpans span spans

/-! ### The sort -/

theorem compareSpans_isLE (a b : ChangedSpan) : (compareSpans a b).isLE = true ↔
    a.start < b.start ∨ a.start = b.start ∧
      ∀ stop, b.stop = some stop → ∃ stop', a.stop = some stop' ∧ stop' ≤ stop := by
  rw [compareSpans, compareOfLessAndEq]
  split
  · next h => simp [h]
  · next h =>
    split
    · next heq =>
      rw [heq]
      cases ha : a.stop <;> cases hb : b.stop <;>
        simp [Ordering.then, compareSpanEnd, compareOfLessAndEq]
      next left right =>
      rcases lt_trichotomy left right with h | rfl | h
      · simp [h, h.le]
      · simp
      · simp [h.not_gt, h.ne', h]
    · next hne => simp [Ordering.then, h, hne]

/-- The sorted spans are in the order of their starts. -/
theorem sorted_spans (spans : List ChangedSpan) :
    (spans.insertionSort fun a b => (compareSpans a b).isLE = true).Pairwise
      fun a b => a.start ≤ b.start := by
  have : Std.Total fun a b => (compareSpans a b).isLE = true := by
    constructor
    intro a b
    simp only [compareSpans_isLE]
    rcases lt_trichotomy a.start b.start with h | h | h
    · exact .inl (.inl h)
    · cases ha : a.stop <;> cases hb : b.stop <;> simp [h, le_total]
    · exact .inr (.inl h)
  have : IsTrans ChangedSpan fun a b => (compareSpans a b).isLE = true := by
    constructor
    intro a b c hab hbc
    simp only [compareSpans_isLE] at *
    grind
  refine (pairwise_insertionSort _ spans).imp fun {a b} h => ?_
  rcases (compareSpans_isLE a b).mp h with h | h
  · exact h.le
  · exact h.1.le

/-! ### The loop -/

def ChangedSpan.Contains (span : ChangedSpan) (key : Bytes) : Prop :=
  span.start ≤ key ∧ ∀ stop, span.stop = some stop → key < stop

/-- The first span ends, and there is a gap before the second one starts. -/
def ChangedSpan.Before (a b : ChangedSpan) : Prop := ∃ stop, a.stop = some stop ∧ stop < b.start

theorem changedSpanIsValid_iff {span : ChangedSpan} :
    changedSpanIsValid span = true ↔ span.Contains span.start := by
  simp only [changedSpanIsValid, ChangedSpan.Contains, le_refl, true_and]
  cases span.stop <;> simp

/-- A span that starts in another one, or right at its end, extends it. -/
theorem contains_maxSpanEnd {last span : ChangedSpan} (hstart : last.start ≤ span.start)
    (hmeets : spanStartsBeforeOrAtEnd span.start last.stop = true) (key : Bytes) :
    ChangedSpan.Contains { last with stop := maxSpanEnd last.stop span.stop } key ↔
      last.Contains key ∨ span.Contains key := by
  obtain ⟨start, stop⟩ := last
  obtain ⟨start', stop'⟩ := span
  simp only [ChangedSpan.Contains, spanStartsBeforeOrAtEnd] at *
  cases stop with
  | none =>
    simp [maxSpanEnd]
    grind
  | some stop =>
    cases stop' with
    | none =>
      simp [maxSpanEnd]
      grind
    | some stop' =>
      simp [maxSpanEnd] at *
      grind

/-- The spans of the loop. All that are left start at or after the last one. -/
structure Normalized (last : ChangedSpan) (spans out : List ChangedSpan) : Prop where
  valid : ∀ span ∈ out, changedSpanIsValid span = true
  start_le : ∀ span ∈ out, last.start ≤ span.start
  before : out.Pairwise ChangedSpan.Before
  contains : ∀ key, (∃ span ∈ out, span.Contains key) ↔
    last.Contains key ∨ ∃ span ∈ spans, span.Contains key

theorem mergeSpans_normalized {last : ChangedSpan} {spans : List ChangedSpan}
    (hlast : changedSpanIsValid last = true)
    (hvalid : ∀ span ∈ spans, changedSpanIsValid span = true)
    (hsorted : (last :: spans).Pairwise fun a b => a.start ≤ b.start) :
    Normalized last spans (mergeSpans last spans) := by
  induction spans generalizing last with
  | nil =>
    rw [mergeSpans]
    exact ⟨by simpa using hlast, by simp, pairwise_singleton _ _, by simp⟩
  | cons span spans ih =>
    obtain ⟨hfirst, hrest⟩ := pairwise_cons.mp hsorted
    have hstart : last.start ≤ span.start := hfirst span mem_cons_self
    have hspan := hvalid span mem_cons_self
    have hvalid' := fun s hs => hvalid s (.tail _ hs)
    rw [mergeSpans]
    split
    · next hmeets =>
      -- the last span grows; what it contains is what both contained
      have hcontains := contains_maxSpanEnd hstart hmeets
      have hgrown := changedSpanIsValid_iff.mpr
        ((hcontains last.start).mpr (.inl (changedSpanIsValid_iff.mp hlast)))
      obtain ⟨hout, hle, hbefore, hkeys⟩ := ih hgrown hvalid'
        (pairwise_cons.mpr ⟨fun s hs => hfirst s (.tail _ hs), (pairwise_cons.mp hrest).2⟩)
      refine ⟨hout, hle, hbefore, fun key => ?_⟩
      rw [hkeys, hcontains, or_assoc]
      simp
    · next hmeets =>
      obtain ⟨hout, hle, hbefore, hkeys⟩ := ih hspan hvalid' hrest
      refine ⟨forall_mem_cons.mpr ⟨hlast, hout⟩,
        forall_mem_cons.mpr ⟨le_rfl, fun s hs => hstart.trans (hle s hs)⟩,
        pairwise_cons.mpr ⟨fun s hs => ?_, hbefore⟩, fun key => ?_⟩
      · rw [spanStartsBeforeOrAtEnd.eq_def] at hmeets
        split at hmeets
        · simp at hmeets
        · next stop hstop => exact ⟨stop, hstop, lt_of_lt_of_le (by simpa using hmeets) (hle s hs)⟩
      · simp [hkeys]

/-- Normalized spans are not empty, sorted, disjoint and apart from each other, and they contain
the keys that the spans contained. -/
theorem normalizeChangedSpans_spec (spans : List ChangedSpan) :
    (∀ span ∈ normalizeChangedSpans spans, ∃ key, span.Contains key) ∧
    ((normalizeChangedSpans spans).Pairwise fun a b => a.start < b.start) ∧
    ((normalizeChangedSpans spans).Pairwise fun a b => ∀ key, ¬ (a.Contains key ∧ b.Contains key)) ∧
    ((normalizeChangedSpans spans).Pairwise fun a b => ∃ stop, a.stop = some stop ∧
      stop < b.start) ∧
    ∀ key, (∃ span ∈ normalizeChangedSpans spans, span.Contains key) ↔
      ∃ span ∈ spans, span.Contains key := by
  obtain ⟨hvalid, hbefore, hkeys⟩ :
    (∀ span ∈ normalizeChangedSpans spans, changedSpanIsValid span = true) ∧
      (normalizeChangedSpans spans).Pairwise ChangedSpan.Before ∧
      ∀ key, (∃ span ∈ normalizeChangedSpans spans, span.Contains key) ↔
        ∃ span ∈ spans.filter changedSpanIsValid, span.Contains key := by
    have hperm := perm_insertionSort (fun a b => (compareSpans a b).isLE = true)
      (spans.filter changedSpanIsValid)
    have hsorted := sorted_spans (spans.filter changedSpanIsValid)
    rw [normalizeChangedSpans]
    simp only [← hperm.mem_iff]
    have hfilter : ∀ span ∈ (spans.filter changedSpanIsValid).insertionSort
        fun a b => (compareSpans a b).isLE = true, changedSpanIsValid span = true :=
      fun span hspan => (mem_filter.mp (hperm.mem_iff.mp hspan)).2
    cases hcases : (spans.filter changedSpanIsValid).insertionSort
        fun a b => (compareSpans a b).isLE = true with
    | nil => simp
    | cons span rest =>
      rw [hcases] at hsorted hfilter
      obtain ⟨hout, -, hbefore, hkeys⟩ := mergeSpans_normalized (hfilter span mem_cons_self)
        (fun s hs => hfilter s (.tail _ hs)) hsorted
      exact ⟨hout, hbefore, by simpa using hkeys⟩
  have hstart := fun span hspan => changedSpanIsValid_iff.mp (hvalid span hspan)
  refine ⟨fun span hspan => ⟨span.start, hstart span hspan⟩, ?_, ?_, hbefore, fun key => ?_⟩
  · refine hbefore.imp_of_mem fun {a b} ha _ hab => ?_
    obtain ⟨stop, hstop, hlt⟩ := hab
    exact ((hstart a ha).2 stop hstop).trans hlt
  · refine hbefore.imp fun {a b} hab key hkey => ?_
    obtain ⟨stop, hstop, hlt⟩ := hab
    exact absurd (hkey.1.2 stop hstop) (not_lt.mpr (hlt.le.trans hkey.2.1))
  · -- a span that contains a key is not empty
    rw [hkeys]
    refine exists_congr fun span => ?_
    rw [mem_filter, changedSpanIsValid_iff, and_assoc]
    refine and_congr_right fun _ => ⟨fun h => h.2, fun h => ⟨⟨le_rfl, fun stop hstop => ?_⟩, h⟩⟩
    exact h.1.trans_lt (h.2 stop hstop)

end Prolly

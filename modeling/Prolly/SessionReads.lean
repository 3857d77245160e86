import Prolly.CascadeOrder
import Prolly.Scan.Iter
import Prolly.WriteSession

/-!
# Prolly.SessionReads

Reads through a write session (`write_session.rs`). The merge of the overlay into a scan of the
base is the streaming form of `patch`: a session reads as the base with the staged edits done
(`sessionReads_exact`).
-/

namespace Prolly

open SortedAssoc
open List hiding lookup lookup_append lookup_cons

variable {σ β : Type}

/-- Staged entries in key order. -/
abbrev Staged := List (Bytes × PendingValue)

/-- What a scan keeps while the base cursor runs: the staged entries not passed, the number of
entries handed out, the break and the visitor's state. -/
structure Merge (σ β : Type) where
  overlay : Staged
  visited : Nat
  stopped : Option β
  state : σ

namespace Merge

variable (visit : Visitor σ β)

def offer (m : Merge σ β) (e : Entry) : Merge σ β × Option Unit :=
  match visit m.state e with
  | (state, some value) =>
    ({ m with visited := m.visited + 1, stopped := some value, state }, some ())
  | (state, none) => ({ m with visited := m.visited + 1, state }, none)

/-- A staged value is handed to the visitor, a deletion is passed over. -/
def offerPending (m : Merge σ β) (key : Bytes) : PendingValue → Merge σ β × Option Unit
  | .value val => m.offer visit (key, val)
  | .deleted => (m, none)

/-- The closure of the base cursor, with the overlay as argument. -/
def mergeEntry (baseEntry : Entry) : Staged → Merge σ β → Merge σ β × Option Unit
  | [], m => { m with overlay := [] }.offer visit baseEntry
  | (key, pending) :: overlay, m =>
    if key < baseEntry.1 then
      match { m with overlay }.offerPending visit key pending with
      | (m, some ()) => (m, some ())
      | (m, none) => mergeEntry baseEntry overlay m
    else if key = baseEntry.1 then { m with overlay }.offerPending visit key pending
    else { m with overlay := (key, pending) :: overlay }.offer visit baseEntry

def visitor : Visitor (Merge σ β) Unit := fun m e => mergeEntry visit e m.overlay m

/-- The loop over the staged entries behind the last base entry. -/
def drain : Staged → Merge σ β → Merge σ β
  | [], m => m
  | (key, pending) :: overlay, m =>
    match m.offerPending visit key pending with
    | (m, some ()) => m
    | (m, none) => drain overlay m

def outcome (m : Merge σ β) : σ × ScanOutcome β := (m.state, ⟨m.visited, m.stopped⟩)

end Merge

namespace WriteSession

variable (s : WriteSession) (p : Manager) (fuel : Nat) (start : Bytes) (stop : Option Bytes)

/-- The staged entries of a range. -/
def overlayRange : Staged :=
  (s.overlay.entries.filter fun e => start ≤ e.1).takeWhile fun e =>
    stop.all fun stop => e.1 < stop

/-- `scan_range_until`. -/
def scanRangeUntil (visit : Visitor σ β) (state : σ) : Result (σ × ScanOutcome β) := do
  let (m, baseOutcome) ← p.scanRangeUntil fuel s.base start stop (Merge.visitor visit)
    ⟨s.overlayRange start stop, 0, none, state⟩
  if baseOutcome.stopped.isSome then return m.outcome
  else return (m.drain visit m.overlay).outcome

end WriteSession

/-! ### The merge is a patch -/

/-- What a staged value leaves at its key. -/
def PendingValue.edit : PendingValue → Option Bytes
  | .value val => some val
  | .deleted => none

/-- Staged entries as edits of the base. -/
def edits (overlay : Staged) : List (Bytes × Option Bytes) :=
  overlay.map fun e => (e.1, e.2.edit)

namespace Merge

variable {visit : Visitor σ β} {m m' : Merge σ β} {r : Merge σ β × Option Unit}
  {passed more : List Entry} {left left' : List (Bytes × Option Bytes)}

/-- `r` is where a scan at `m` is after the entries `passed`: the visitor broke at one of them,
or the scan goes on behind them with `left` of the overlay. -/
def Ran (visit : Visitor σ β) (m : Merge σ β) (passed : List Entry)
    (r : Merge σ β × Option Unit) (left : List (Bytes × Option Bytes)) : Prop :=
  m.stopped = none → (r.2 = none → r.1.stopped = none ∧ edits r.1.overlay = left) ∧
    ∀ later, visitAll visit m.state m.visited (passed ++ later) =
      if r.2 = none then visitAll visit r.1.state r.1.visited later else r.1.outcome

theorem ran_offer (m : Merge σ β) (e : Entry) :
    Ran visit m [e] (m.offer visit e) (edits m.overlay) := by
  intro hstopped
  unfold offer
  rcases hv : visit m.state e with ⟨state, _ | value⟩ <;> simp [visitAll, hv, hstopped, outcome]

theorem ran_offerPending (m : Merge σ β) (key : Bytes) (pending : PendingValue) :
    Ran visit m (kept (key, pending.edit)) (m.offerPending visit key pending)
      (edits m.overlay) := by
  cases pending with
  | value val => exact ran_offer m (key, val)
  | deleted => exact fun hstopped => ⟨fun _ => ⟨hstopped, rfl⟩, fun later => (if_pos rfl).symm⟩

theorem Ran.trans (h : Ran visit m passed (m', none) left') (h' : Ran visit m' more r left) :
    Ran visit m (passed ++ more) r left := by
  intro hstopped
  obtain ⟨hon, hran⟩ := h hstopped
  obtain ⟨hon', hran'⟩ := h' (hon rfl).1
  refine ⟨hon', fun later => ?_⟩
  rw [append_assoc, hran, if_pos rfl, hran']

/-- After a break nothing more is handed out. -/
theorem Ran.broke (h : Ran visit m passed (m', some ()) left') :
    Ran visit m (passed ++ more) (m', some ()) left := by
  intro hstopped
  refine ⟨(by cases ·), fun later => ?_⟩
  rw [append_assoc]
  exact (h hstopped).2 (more ++ later)

/-- One entry of the base: what `absorb` makes of it is handed out. -/
theorem ran_mergeEntry (e : Entry) (overlay : Staged) (m : Merge σ β) :
    Ran visit m (absorb e (edits overlay)).1 (mergeEntry visit e overlay m)
      (absorb e (edits overlay)).2 := by
  induction overlay generalizing m with
  | nil => exact ran_offer { m with overlay := [] } e
  | cons entry overlay ih =>
    obtain ⟨key, pending⟩ := entry
    have hoffer := @ran_offerPending _ _ visit { m with overlay } key pending
    rw [mergeEntry]
    simp only [edits, map_cons, absorb] at ih ⊢
    split
    · rcases hr : offerPending visit { m with overlay } key pending with ⟨m', _ | _⟩
      · exact Ran.trans (hr ▸ hoffer) (ih m')
      · exact Ran.broke (hr ▸ hoffer)
    · split
      · exact hoffer
      · exact ran_offer { m with overlay := (key, pending) :: overlay } e

theorem drain_outcome (overlay : Staged) (hstopped : m.stopped = none) :
    (m.drain visit overlay).outcome =
      visitAll visit m.state m.visited ((edits overlay).flatMap kept) := by
  induction overlay generalizing m with
  | nil => simp [drain, edits, visitAll, outcome, hstopped]
  | cons entry overlay ih =>
    obtain ⟨key, pending⟩ := entry
    obtain ⟨hon, hran⟩ := @ran_offerPending _ _ visit m key pending hstopped
    simp only [edits, map_cons, flatMap_cons] at ih ⊢
    rw [drain, hran]
    rcases hr : m.offerPending visit key pending with ⟨m', _ | _⟩
    · rw [hr] at hon
      exact ih (hon rfl).1
    · rfl

/-- The base entries and the overlay left, up to the break. -/
theorem scan_patch (es : List Entry) (visited : Nat) (hstopped : m.stopped = none) :
    let r := visitAll (visitor visit) m visited es
    (if r.2.stopped.isSome then r.1.outcome else (r.1.drain visit r.1.overlay).outcome) =
      visitAll visit m.state m.visited (patch es (edits m.overlay)) := by
  induction es generalizing m visited with
  | nil => exact (drain_outcome m.overlay hstopped).trans (by rw [patch_nil_left])
  | cons e es ih =>
    obtain ⟨hon, hran⟩ := @ran_mergeEntry _ _ visit e m.overlay m hstopped
    rw [visitAll, visitor, patch_cons_absorb, hran]
    rcases hr : mergeEntry visit e m.overlay m with ⟨m', _ | _⟩
    · rw [hr] at hon
      rw [← (hon rfl).2]
      exact ih _ (hon rfl).1
    · rfl

end Merge

/-! ### Session reads -/

namespace WriteSession

variable (s : WriteSession) {p : Manager} {es : List Entry} (key start : Bytes)
  (stop : Option Bytes) (visit : Visitor σ β) (state : σ)

/-- What a session over the entries `es` holds. -/
def contents (es : List Entry) : List Entry := patch es (edits s.overlay.entries)

theorem sortedEdits : SortedEdits (edits s.overlay.entries) := pairwise_map.mpr s.overlay.sorted

theorem lookup_edits (overlay : Staged) :
    lookup (edits overlay) key = (lookup overlay key).map PendingValue.edit := by
  induction overlay with
  | nil => rfl
  | cons entry overlay ih =>
    obtain ⟨key', pending⟩ := entry
    simp only [edits, map_cons, lookup_cons] at ih ⊢
    split <;> simp [ih]

theorem edits_overlayRange :
    edits (s.overlayRange start stop) =
      (edits s.overlay.entries).filter fun m => KeyRange.contains ⟨start, stop⟩ m.1 := by
  rw [overlayRange, takeWhile_eq_filter, filter_filter, edits, edits, filter_map]
  · refine congrArg _ (filter_congr fun e _ => ?_)
    rw [Bool.eq_iff_iff]
    cases stop <;> simp [KeyRange.contains_iff, and_comm]
  · refine (s.overlay.sorted.filter _).imp fun {a b} hab hb => ?_
    cases stop with
    | none => rfl
    | some stop => simpa using hab.trans (by simpa using hb)

theorem get_eq (h : Holds p s.base.root es) :
    Enough fun fuel => s.get (p.get fuel) key = .ok (lookup (s.contents es) key) := by
  refine (Manager.get_eq h key).mono fun fuel hget => ?_
  rw [contents, lookup_patch h.sorted s.sortedEdits, lookup_edits, get]
  change _ = Except.ok (((s.overlay.get? key).map PendingValue.edit).getD _)
  rcases s.overlay.get? key with _ | _ | _
  · exact hget
  all_goals rfl

theorem scanRangeUntil_eq (h : Holds p s.base.root es) :
    Enough fun fuel => s.scanRangeUntil p fuel start stop visit state =
      .ok (visitAll visit state 0 (KeyRange.restrict ⟨start, stop⟩ (s.contents es))) := by
  refine (p.scanForwardUntil_eq h start stop false (Merge.visitor visit)
    ⟨s.overlayRange start stop, 0, none, state⟩).mono fun fuel hscan => ?_
  rw [scanRangeUntil, Manager.scanRangeUntil, hscan, KeyRange.restrict, contents,
    filter_patch _ h.sorted s.sortedEdits, ← edits_overlayRange, entriesIn_eq_restrict,
    ← Merge.scan_patch (m := ⟨s.overlayRange start stop, 0, none, state⟩) _ 0 rfl]
  exact (apply_ite Except.ok ..).symm

/-- A session reads as its contents: a point read finds the value, and a scan hands the entries to
the visitor in order, until it breaks. -/
theorem sessionReads_exact (h : Holds p s.base.root es) :
    (∀ key, Enough fun fuel => s.get (p.get fuel) key = .ok (lookup (s.contents es) key)) ∧
    ∀ {σ β : Type} (start : Bytes) (stop : Option Bytes) (visit : Visitor σ β) (state : σ),
      Enough fun fuel => s.scanRangeUntil p fuel start stop visit state =
        .ok (visitAll visit state 0 (KeyRange.restrict ⟨start, stop⟩ (s.contents es))) :=
  ⟨fun _ => s.get_eq _ h, fun _ _ _ _ => s.scanRangeUntil_eq _ _ _ _ h⟩

open Reversed (u a b c manager uabc holds_uabc)

/-- `a` overwritten and `b` deleted over the tree of `u, a, b, c`. -/
def restaged : WriteSession :=
  run (fun _ _ => .error .invalidNode) { base := uabc, maxBytes := 64 } [.put a.1 [1], .delete b.1]

theorem restaged_contents : restaged.contents [u, a, b, c] = [u, (a.1, [1]), c] := by
  decide +kernel

/-- The visitor that collects what it sees. -/
def collecting : Visitor (List Entry) Unit := fun seen e => (seen ++ [e], none)

theorem sessionReads_exact_restaged :
    (Enough fun fuel => restaged.get (manager.get fuel) a.1 = .ok (some [1])) ∧
    (Enough fun fuel => restaged.get (manager.get fuel) b.1 = .ok none) ∧
    Enough fun fuel => restaged.scanRangeUntil manager fuel [97] none collecting [] =
      .ok ([(a.1, [1]), c], ⟨2, none⟩) := by
  obtain ⟨hget, hscan⟩ := restaged.sessionReads_exact (p := manager) holds_uabc
  rw [restaged_contents] at hget hscan
  exact ⟨hget a.1, hget b.1, hscan [97] none collecting []⟩

end WriteSession

end Prolly

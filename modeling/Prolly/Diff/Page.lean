import Prolly.Diff.Range

/-!
# Prolly.Diff.Page

Structural diff pages: an iterator over the traversal that can be suspended into
a cursor after any number of differences and resumed from it.

An iterator stands for the differences it has still to emit: those already
expanded (`pending`), then those of the frames on its stack. When the lineage
shows that the other tree only appends to the base tree, the iterator drops its
stack and emits the recorded upserts instead. `next` takes the first of these
differences (`next_spec`), a checkpoint keeps all of them (`checkpoint_spec`), so
pages cut the diff into consecutive pieces.
-/

namespace Prolly

open SortedAssoc
open List hiding lookup

/-! ### Cursors -/

/-- `StructuralDiffMarker`. -/
inductive StructuralDiffMarker where
  | compare (baseCid otherCid : Cid) (spanEnd : Option Bytes)
  | added (cid : Cid)
  | removed (cid : Cid)
  deriving DecidableEq

/-- `DiffFrame::to_marker`. -/
def DiffFrame.toMarker : DiffFrame → StructuralDiffMarker
  | .compare baseCid otherCid spanEnd => .compare baseCid otherCid spanEnd
  | .added cid => .added cid
  | .removed cid => .removed cid

/-- `DiffFrame::from_marker`. -/
def DiffFrame.fromMarker : StructuralDiffMarker → DiffFrame
  | .compare baseCid otherCid spanEnd => .compare baseCid otherCid spanEnd
  | .added cid => .added cid
  | .removed cid => .removed cid

@[simp] theorem DiffFrame.fromMarker_toMarker (frame : DiffFrame) :
    fromMarker frame.toMarker = frame := by cases frame <;> rfl

/-- `StructuralDiffCursor`. Markers are listed as the source's stack is, the top last. -/
structure StructuralDiffCursor where
  baseRoot : Option Cid
  otherRoot : Option Cid
  markers : List StructuralDiffMarker
  pending : List Diff

namespace StructuralDiffCursor

/-- `StructuralDiffCursor::start`. -/
def start (base other : Tree) : StructuralDiffCursor :=
  ⟨base.root, other.root, (initialDiffStack base other).reverse.map DiffFrame.toMarker, []⟩

/-- `matches_trees`. -/
def matchesTrees (c : StructuralDiffCursor) (base other : Tree) : Bool :=
  c.baseRoot = base.root && c.otherRoot = other.root

end StructuralDiffCursor

/-- `StructuralDiffPage`, without the traversal counters. -/
structure StructuralDiffPage where
  diffs : List Diff
  nextCursor : Option StructuralDiffCursor

/-! ### The iterator -/

/-- `AsyncDiffIter`. -/
structure DiffIter where
  base : Tree
  baseRoot : Option Cid
  otherRoot : Option Cid
  stack : List DiffFrame
  pending : List Diff
  lineageCandidate : Option (List Mutation)
  appendLineage : Option (List Mutation)
  lineageIndex : Nat
  failed : Bool

/-- The difference an upsert of an append-only lineage stands for. -/
def appendedDiff : Mutation → Option Diff
  | .upsert key val => some (.added key val)
  | .delete _ => none

namespace DiffIter

variable (p : Manager) (fuel : Nat) (it : DiffIter)

/-- `AsyncDiffIter::new`. -/
def new (base other : Tree) : DiffIter where
  base := base
  baseRoot := base.root
  otherRoot := other.root
  stack := initialDiffStack base other
  pending := []
  lineageCandidate := (p.branchChangesSince base other).filter fun changes => changes.length ≥ 16
  appendLineage := none
  lineageIndex := 0
  failed := false

/-- `AsyncDiffIter::from_cursor`. -/
def fromCursor (base other : Tree) (cursor : StructuralDiffCursor) : Result DiffIter :=
  if !cursor.matchesTrees base other then .error .invalidNode
  else .ok
    { base
      baseRoot := base.root
      otherRoot := other.root
      stack := (cursor.markers.map DiffFrame.fromMarker).reverse
      pending := cursor.pending
      lineageCandidate := none
      appendLineage := none
      lineageIndex := 0
      failed := false }

/-- `checkpoint`. -/
def checkpoint : Option StructuralDiffCursor :=
  let lineageDone := match it.appendLineage with
    | none => true
    | some changes => it.lineageIndex ≥ changes.length
  if it.stack.isEmpty && it.pending.isEmpty && lineageDone then none
  else
    let rest := match it.appendLineage with
      | none => []
      | some changes => (changes.drop it.lineageIndex).filterMap appendedDiff
    some ⟨it.baseRoot, it.otherRoot, it.stack.reverse.map DiffFrame.toMarker, it.pending ++ rest⟩

/-- `pop_append_lineage_diff`. -/
def popAppendLineageDiff : Option Diff × DiffIter :=
  match it.appendLineage with
  | none => (none, it)
  | some changes =>
    match changes[it.lineageIndex]? with
    | none => (none, it)
    | some mutation => (appendedDiff mutation, { it with lineageIndex := it.lineageIndex + 1 })

/-- `prepare_append_lineage`. -/
def prepareAppendLineage : Result DiffIter :=
  match it.lineageCandidate with
  | none => .ok it
  | some changes =>
    let it := { it with lineageCandidate := none }
    match changes.head? with
    | none => .ok it
    | some first =>
      if changes.any Mutation.isDelete then .ok it
      else do
        match ← p.lastEntry fuel it.base with
        | some maximum =>
          if first.key ≤ maximum.1 then return it
          else return { it with stack := [], appendLineage := some changes }
        | none => return { it with stack := [], appendLineage := some changes }

/-- `fill_pending`: the stack and the pending differences it leaves. -/
def fillPending : Result DiffIter :=
  if !it.pending.isEmpty then .ok it
  else do
    let (stack, pending) ← StackLoop.advance .outOfFuel (p.processFrame fuel) fuel it.stack
    return { it with stack, pending }

/-- `next`: the answer and the iterator it leaves. -/
def next : Option (Result Diff) × DiffIter :=
  if it.failed then (none, it)
  else
    match it.popAppendLineageDiff with
    | (some diff, it) => (some (.ok diff), it)
    | (none, it) =>
      match it.prepareAppendLineage p fuel with
      | .error e => (some (.error e), { it with failed := true })
      | .ok it =>
        match it.popAppendLineageDiff with
        | (some diff, it) => (some (.ok diff), it)
        | (none, it) =>
          match it.fillPending p fuel with
          | .error e => (some (.error e), { it with failed := true, stack := [], pending := [] })
          | .ok it =>
            match it.pending with
            | [] => (none, it)
            | diff :: pending => (some (.ok diff), { it with pending })

/-- `for _ in 0..limit`: the differences taken and the iterator left. -/
def take (p : Manager) (fuel : Nat) : Nat → DiffIter → Result (List Diff × DiffIter)
  | 0, it => .ok ([], it)
  | limit + 1, it =>
    match it.next p fuel with
    | (none, it) => .ok ([], it)
    | (some (.error e), _) => .error e
    | (some (.ok diff), it) => do
        let (diffs, it) ← take p fuel limit it
        return (diff :: diffs, it)

end DiffIter

namespace Manager

/-- `structural_diff_page_async`. -/
def structuralDiffPage (p : Manager) (fuel : Nat) (base other : Tree)
    (cursor : Option StructuralDiffCursor) (limit : Nat) : Result StructuralDiffPage :=
  if cursor.any fun c => !c.matchesTrees base other then .error .invalidNode
  else if limit = 0 then
    .ok ⟨[], some (cursor.getD (.start base other))⟩
  else do
    let it ← match cursor with
      | some cursor => DiffIter.fromCursor base other cursor
      | none => .ok (DiffIter.new p base other)
    withCapacity diffSize limit
    let (diffs, it) ← it.take p fuel limit
    return ⟨diffs, it.checkpoint⟩

/-- Calling `structural_diff_page` page after page, the `i`-th time with `limits i`, until
there is no next cursor: all differences returned, or `none` if the calls run out
first. -/
def collectPages (p : Manager) (fuel : Nat) (base other : Tree) (limits : Nat → Nat) :
    Nat → Nat → Option StructuralDiffCursor → Result (Option (List Diff))
  | 0, _, _ => .ok none
  | calls + 1, i, cursor => do
      let page ← p.structuralDiffPage fuel base other cursor (limits i)
      match page.nextCursor with
      | none => return some page.diffs
      | some next => do
          let rest ← p.collectPages fuel base other limits calls (i + 1) (some next)
          return rest.map (page.diffs ++ ·)

end Manager

/-! ### What an iterator has still to emit -/

/-- An iterator that walks the two trees. -/
def DiffIter.traversing (base other : Tree) (stack : List DiffFrame) (pending : List Diff) :
    DiffIter :=
  ⟨base, base.root, other.root, stack, pending, none, none, 0, false⟩

/-- An iterator that emits recorded upserts. -/
def DiffIter.appending (base other : Tree) (changes : List Mutation) (index : Nat) : DiffIter :=
  ⟨base, base.root, other.root, [], [], none, some changes, index, false⟩

open DiffIter (fromCursor prepareAppendLineage popAppendLineageDiff fillPending checkpoint
  traversing appending)

section Meaning

variable {p : Manager} {fuel : Nat} {base other : Tree} {changes : List Mutation} {index : Nat}
  {it : DiffIter} {ds : List Diff}

/-- A prepared iterator over two trees, and the differences it has still to emit. -/
inductive IterMeans (p : Manager) (fuel : Nat) (base other : Tree) :
    DiffIter → List Diff → Prop
  | traversing {n : Nat} {stack : List DiffFrame} {pending later : List Diff}
      (hn : n ≤ fuel) (hsteps : StackLoop.Steps (p.processFrame fuel) n stack later) :
      IterMeans p fuel base other (.traversing base other stack pending) (pending ++ later)
  | appending {changes : List Mutation} {index : Nat}
      (hupserts : ∀ m ∈ changes, m.isDelete = false) :
      IterMeans p fuel base other (.appending base other changes index)
        ((changes.drop index).filterMap appendedDiff)

theorem next_traversing_cons (stack : List DiffFrame) (d : Diff) (pending : List Diff) :
    (traversing base other stack (d :: pending)).next p fuel =
      (some (.ok d), .traversing base other stack pending) := by
  simp [DiffIter.next, traversing, popAppendLineageDiff, prepareAppendLineage, fillPending]

/-- Without pending differences `next` works on the stack until there are some. -/
theorem next_traversing_nil {stack stack' : List DiffFrame} {now : List Diff}
    (h : StackLoop.advance .outOfFuel (p.processFrame fuel) fuel stack = .ok (stack', now)) :
    (traversing base other stack []).next p fuel =
      (now.head?.map .ok, .traversing base other stack' now.tail) := by
  cases now <;> simp [DiffIter.next, traversing, popAppendLineageDiff,
    prepareAppendLineage, fillPending, h]

theorem next_appending_upsert {key val : Bytes} (h : changes[index]? = some (.upsert key val)) :
    (appending base other changes index).next p fuel =
      (some (.ok (.added key val)), .appending base other changes (index + 1)) := by
  simp [DiffIter.next, appending, popAppendLineageDiff, h, appendedDiff]

theorem next_appending_done (h : changes.length ≤ index) :
    (appending base other changes index).next p fuel =
      (none, .appending base other changes index) := by
  have hadvance : StackLoop.advance .outOfFuel (p.processFrame fuel) fuel [] = .ok ([], []) := by
    cases fuel <;> rfl
  simp [DiffIter.next, appending, popAppendLineageDiff, h,
    prepareAppendLineage, fillPending, hadvance]

/-- `next` emits the first of the remaining differences. When there is none, the
iterator is exhausted. -/
theorem IterMeans.next_spec (h : IterMeans p fuel base other it ds) :
    ∃ it', it.next p fuel = (ds.head?.map .ok, it') ∧ IterMeans p fuel base other it' ds.tail ∧
      (ds = [] → it'.checkpoint = none) := by
  cases h with
  | traversing hn hsteps =>
    rename_i n stack pending later
    cases pending with
    | cons d pending =>
      exact ⟨_, next_traversing_cons stack d pending, .traversing hn hsteps, by simp⟩
    | nil =>
      obtain ⟨m, stack', now, later', hadvance, hm, hsteps', rfl, hdone⟩ :=
        hsteps.advance_eq Error.outOfFuel fuel hn
      have hnext : (DiffIter.traversing base other stack []).next p fuel = _ :=
        next_traversing_nil hadvance
      cases now with
      | nil =>
        obtain rfl := hdone rfl
        obtain rfl : later' = [] := by cases hsteps'; rfl
        exact ⟨_, hnext, .traversing (Nat.zero_le fuel) .nil, fun _ => rfl⟩
      | cons d now => exact ⟨_, hnext, .traversing (hm.trans hn) hsteps', by simp⟩
  | appending hupserts =>
    rename_i changes index
    by_cases hindex : index < changes.length
    · have hupsert := hupserts _ (getElem_mem hindex)
      rw [← getElem_cons_drop hindex]
      cases hm : changes[index] with
      | delete key => simp [hm, Mutation.isDelete] at hupsert
      | upsert key val =>
        exact ⟨_, next_appending_upsert (List.getElem?_eq_some_iff.mpr ⟨hindex, hm⟩),
          .appending hupserts, by simp [appendedDiff]⟩
    · have hdone : changes.length ≤ index := not_lt.mp hindex
      have hnil : (changes.drop index).filterMap appendedDiff = [] := by
        rw [drop_eq_nil_of_le hdone, filterMap_nil]
      refine ⟨_, by rw [next_appending_done hdone, hnil]; rfl, ?_, fun _ => ?_⟩
      · rw [hnil, tail_nil, ← hnil]
        exact .appending hupserts
      · simp [checkpoint, DiffIter.appending, hdone]

/-- Taking up to `limit` differences cuts the remaining ones. -/
theorem IterMeans.take_spec (h : IterMeans p fuel base other it ds) (limit : Nat) :
    ∃ it', it.take p fuel limit = .ok (ds.take limit, it') ∧
      IterMeans p fuel base other it' (ds.drop limit) ∧
      (ds.length < limit → it'.checkpoint = none) := by
  induction limit generalizing it ds with
  | zero => exact ⟨it, rfl, h, fun h => absurd h (Nat.not_lt_zero _)⟩
  | succ limit ih =>
    obtain ⟨it1, hnext, hit1, hdone⟩ := h.next_spec
    cases ds with
    | nil =>
      refine ⟨it1, ?_, hit1, fun _ => hdone rfl⟩
      rw [DiffIter.take, hnext]
      rfl
    | cons d ds =>
      obtain ⟨it2, htake, hit2, hdone2⟩ := ih hit1
      refine ⟨it2, ?_, hit2, fun hlt => hdone2 (by simpa using hlt)⟩
      simp only [tail_cons] at htake
      simp [DiffIter.take, hnext, htake]

/-- A checkpoint exists as long as differences remain, and resuming from it continues
with exactly them. -/
theorem IterMeans.checkpoint_spec (h : IterMeans p fuel base other it ds) :
    match it.checkpoint with
    | none => ds = []
    | some cursor => ∃ it', fromCursor base other cursor = .ok it' ∧
        IterMeans p fuel base other it' ds := by
  cases h with
  | traversing hn hsteps =>
    rename_i n stack pending later
    by_cases hempty : stack = [] ∧ pending = []
    · obtain ⟨rfl, rfl⟩ := hempty
      cases hsteps
      rfl
    · have hcheckpoint : (DiffIter.traversing base other stack pending).checkpoint =
          some ⟨base.root, other.root, stack.reverse.map DiffFrame.toMarker, pending⟩ := by
        simpa [checkpoint, DiffIter.traversing] using hempty
      rw [hcheckpoint]
      refine ⟨_, ?_, .traversing hn hsteps⟩
      simp [fromCursor, StructuralDiffCursor.matchesTrees, DiffIter.traversing, Function.comp_def]
  | appending hupserts =>
    rename_i changes index
    by_cases hdone : changes.length ≤ index
    · have hcheckpoint : (DiffIter.appending base other changes index).checkpoint = none := by
        simp [checkpoint, DiffIter.appending, hdone]
      rw [hcheckpoint, drop_eq_nil_of_le hdone]
      rfl
    · have hcheckpoint : (DiffIter.appending base other changes index).checkpoint =
          some ⟨base.root, other.root, [], (changes.drop index).filterMap appendedDiff⟩ := by
        simpa [checkpoint, DiffIter.appending] using hdone
      rw [hcheckpoint]
      -- the resumed iterator has an empty stack: the rest is all pending
      have hresume : IterMeans p fuel base other (.traversing base other []
          ((changes.drop index).filterMap appendedDiff))
          ((changes.drop index).filterMap appendedDiff ++ []) :=
        .traversing (Nat.zero_le fuel) .nil
      rw [append_nil] at hresume
      exact ⟨_, by simp [fromCursor, StructuralDiffCursor.matchesTrees,
        DiffIter.traversing], hresume⟩

end Meaning

/-! ### Starting an iterator -/

section Start

variable {p : Manager} {fuel : Nat} {base other : Tree} {bs os : List Entry}

/-- Upserts past the last key of the base are the differences. -/
theorem appendedDiffs_eq (hb : Sorted bs) (ho : Sorted os) {changes : List Mutation}
    (hs : StrictlySorted changes) (hlinks : lookup os = applyMutations (lookup bs) changes)
    (hpast : ∀ e ∈ bs, ∀ m ∈ changes, e.1 < m.key) :
    changes.filterMap appendedDiff = diff bs os := by
  -- the whole key space as a range
  have hall := lineageDiff_eq (r := ⟨[], none⟩) hb ho hs hlinks
  have hcontains : ∀ key, KeyRange.contains ⟨[], none⟩ key = true := fun key =>
    KeyRange.contains_iff.mpr ⟨not_lt.mp (not_lt_nil key), by simp⟩
  simp only [KeyRange.select, hcontains, filter_true] at hall
  rw [← hall, filterMap_eq_flatMap_toList]
  refine flatMap_congr fun m hm => ?_
  rw [lookup_eq_none_of_below fun e he => hpast e he m hm]
  cases m <;> rfl

/-- Preparing keeps the walk or, when all recorded changes are upserts past the last key
of the base, replaces it by them. -/
theorem prepareAppendLineage_cases (other : Tree) (candidate : Option (List Mutation))
    (stack : List DiffFrame) (hlast : p.lastEntry fuel base = .ok bs.getLast?) :
    ∃ it, prepareAppendLineage p fuel
        ⟨base, base.root, other.root, stack, [], candidate, none, 0, false⟩ = .ok it ∧
      (it = .traversing base other stack [] ∨
        ∃ changes first, candidate = some changes ∧ changes.head? = some first ∧
          (∀ m ∈ changes, m.isDelete = false) ∧ (∀ e ∈ bs.getLast?, e.1 < first.key) ∧
          it = .appending base other changes 0) := by
  cases candidate with
  | none => exact ⟨_, rfl, .inl rfl⟩
  | some changes =>
    cases hfirst : changes.head? with
    | none => exact ⟨_, by simp [prepareAppendLineage, hfirst]; rfl, .inl rfl⟩
    | some first =>
      by_cases hdelete : changes.any Mutation.isDelete = true
      · exact ⟨_, by simp only [prepareAppendLineage, hfirst, if_pos hdelete]; rfl, .inl rfl⟩
      · have hupserts : ∀ m ∈ changes, m.isDelete = false := by simpa using hdelete
        cases hmax : bs.getLast? with
        | none =>
          refine ⟨_, ?_, .inr ⟨changes, first, rfl, hfirst, hupserts, by simp, rfl⟩⟩
          simp only [prepareAppendLineage, hfirst, if_neg hdelete, hlast, hmax, ok_bind, pure_eq]
          rfl
        | some e =>
          by_cases hle : first.key ≤ e.1
          · refine ⟨_, ?_, .inl rfl⟩
            simp only [prepareAppendLineage, hfirst, if_neg hdelete, hlast, hmax,
              ok_bind, pure_eq, if_pos hle]
            rfl
          · refine ⟨_, ?_, .inr ⟨changes, first, rfl, hfirst, hupserts, ?_, rfl⟩⟩
            · simp only [prepareAppendLineage, hfirst, if_neg hdelete, hlast, hmax,
                ok_bind, pure_eq, if_neg hle]
              rfl
            · simpa using hle

/-- In a sorted list what is past the last key is past all of them. -/
theorem lt_of_getLast_lt (hb : Sorted bs) {key : Bytes} (h : ∀ e ∈ bs.getLast?, e.1 < key) :
    ∀ e ∈ bs, e.1 < key := by
  intro e he
  obtain ⟨init, last, rfl⟩ : ∃ init last, bs = init ++ [last] :=
    ⟨_, _, (dropLast_append_getLast (ne_nil_of_mem he)).symm⟩
  have hlast : last.1 < key := h last (by simp)
  rcases mem_append.mp he with he | he
  · exact ((sorted_append.mp hb).2.2 e he last mem_cons_self).trans hlast
  · rwa [mem_singleton.mp he]

/-- A new iterator, once prepared, has the whole diff to emit. -/
theorem prepareAppendLineage_spec (hl : p.LineageSound) (hb : Holds p base.root bs)
    (ho : Holds p other.root os) :
    Enough fun fuel => ∃ it, (DiffIter.new p base other).prepareAppendLineage p fuel = .ok it ∧
      IterMeans p fuel base other it (diff bs os) := by
  obtain ⟨level, hframes⟩ := diffFraming.initial_means hb ho
  obtain ⟨n, hsteps⟩ := (StackLoop.Concat.eval hframes processFrame_eval).steps
  have hn : Enough fun fuel => n ≤ fuel := ⟨n, fun _ h => h⟩
  refine ((hsteps.and hn).and (Manager.lastEntry_eq hb)).mono fun fuel ⟨⟨hsteps, hn⟩, hlast⟩ => ?_
  obtain ⟨it, hprepare, hit⟩ := prepareAppendLineage_cases other
    ((p.branchChangesSince base other).filter fun changes => changes.length ≥ 16)
    (initialDiffStack base other) hlast
  refine ⟨it, hprepare, ?_⟩
  rcases hit with rfl | ⟨changes, first, hchanges, hfirst, hupserts, hpast, rfl⟩
  · exact .traversing hn hsteps
  · obtain ⟨hs, hlinks⟩ := hl.changesSince hb ho (Option.filter_eq_some_iff.mp hchanges).1
    have hpast' : ∀ e ∈ bs, ∀ m ∈ changes, e.1 < m.key := by
      intro e he m hm
      obtain ⟨rest, rfl⟩ : ∃ rest, changes = first :: rest := ⟨_, (cons_head?_tail hfirst).symm⟩
      have hfirstLt := lt_of_getLast_lt hb.sorted hpast e he
      rcases mem_cons.mp hm with rfl | hm
      · exact hfirstLt
      · exact hfirstLt.trans ((pairwise_cons.mp hs).1 m hm)
    rw [← appendedDiffs_eq hb.sorted ho.sorted hs hlinks hpast']
    exact .appending hupserts

/-- `next` prepares an iterator first. -/
theorem next_of_prepare {candidate : Option (List Mutation)} {stack : List DiffFrame}
    {it : DiffIter} {ds : List Diff}
    (hprepare : prepareAppendLineage p fuel
      ⟨base, base.root, other.root, stack, [], candidate, none, 0, false⟩ = .ok it)
    (hit : IterMeans p fuel base other it ds) :
    DiffIter.next p fuel ⟨base, base.root, other.root, stack, [], candidate, none, 0, false⟩ =
      it.next p fuel := by
  have hfresh : ∀ x, (⟨base, base.root, other.root, stack, [], candidate, none, 0, false⟩ :
      DiffIter) = x → x.next p fuel = it.next p fuel := by
    intro x hx
    have hpop : x.popAppendLineageDiff = (none, x) := by subst hx; rfl
    have hfailed : x.failed = false := by subst hx; rfl
    rw [hx] at hprepare
    rw [DiffIter.next, hfailed, hpop]
    simp only [Bool.false_eq_true, if_false, hprepare]
    cases hit with
    | traversing => rfl
    | appending hupserts =>
      rename_i changes index
      cases hm : changes[index]? with
      | none => simp [DiffIter.next, appending, popAppendLineageDiff, hm, prepareAppendLineage]
      | some m =>
        have hupsert := hupserts m (mem_of_getElem? hm)
        cases m with
        | delete key => simp [Mutation.isDelete] at hupsert
        | upsert key val =>
          simp [DiffIter.next, appending, popAppendLineageDiff, hm, appendedDiff]
  exact hfresh _ rfl

/-- Taking from a new iterator cuts the diff. -/
theorem take_new_spec (hl : p.LineageSound) (hb : Holds p base.root bs)
    (ho : Holds p other.root os) :
    Enough fun fuel => ∀ limit, 0 < limit →
      ∃ it, (DiffIter.new p base other).take p fuel limit =
          .ok ((diff bs os).take limit, it) ∧
        IterMeans p fuel base other it ((diff bs os).drop limit) ∧
        ((diff bs os).length < limit → it.checkpoint = none) := by
  refine (prepareAppendLineage_spec hl hb ho).mono fun fuel ⟨it, hprepare, hit⟩ limit hlimit => ?_
  obtain _ | limit := limit
  · omega
  have hnext : (DiffIter.new p base other).next p fuel = it.next p fuel :=
    next_of_prepare hprepare hit
  have htake : (DiffIter.new p base other).take p fuel (limit + 1) =
      it.take p fuel (limit + 1) := by
    rw [DiffIter.take, DiffIter.take, hnext]
  rw [htake]
  exact hit.take_spec (limit + 1)

end Start

/-! ### Pages -/

section Pages

variable {p : Manager} {fuel : Nat} {base other : Tree} {bs os : List Entry} {ds : List Diff}
  {limit calls : Nat} {cursor : StructuralDiffCursor} {limits : Nat → Nat}

/-- A cursor that resumes with the differences `ds`. -/
def CursorMeans (p : Manager) (fuel : Nat) (base other : Tree) (cursor : StructuralDiffCursor)
    (ds : List Diff) : Prop :=
  ∃ it, fromCursor base other cursor = .ok it ∧ IterMeans p fuel base other it ds

/-- What a page promises: it has the first `limit` of the differences, and its cursor
resumes with the others. There is a cursor only after a full page. -/
def PageSpec (p : Manager) (fuel : Nat) (base other : Tree) (limit : Nat) (ds : List Diff)
    (page : Result StructuralDiffPage) : Prop :=
  ∃ next, page = .ok ⟨ds.take limit, next⟩ ∧
    match next with
    | none => ds.length ≤ limit
    | some cursor => limit ≤ ds.length ∧ CursorMeans p fuel base other cursor (ds.drop limit)

/-- A page ends with the checkpoint of the iterator it took its differences from. -/
theorem PageSpec.of_take {it : DiffIter} (hit : IterMeans p fuel base other it (ds.drop limit))
    (hdone : ds.length < limit → it.checkpoint = none) :
    PageSpec p fuel base other limit ds (.ok ⟨ds.take limit, it.checkpoint⟩) := by
  refine ⟨it.checkpoint, rfl, ?_⟩
  have hspec := hit.checkpoint_spec
  cases hc : it.checkpoint with
  | none =>
    rw [hc] at hspec
    exact drop_eq_nil_iff.mp hspec
  | some cursor =>
    rw [hc] at hspec
    exact ⟨not_lt.mp fun h => by simp [hdone h] at hc, hspec⟩

/-- The first page. -/
theorem structuralDiffPage_none (hl : p.LineageSound) (hb : Holds p base.root bs)
    (ho : Holds p other.root os) :
    Enough fun fuel => ∀ limit, 0 < limit → VecFits diffSize limit →
      PageSpec p fuel base other limit (diff bs os)
        (p.structuralDiffPage fuel base other none limit) := by
  refine (take_new_spec hl hb ho).mono fun fuel htake limit hlimit hfits => ?_
  obtain ⟨it, heq, hit, hdone⟩ := htake limit hlimit
  have hpage : p.structuralDiffPage fuel base other none limit =
      .ok ⟨(diff bs os).take limit, it.checkpoint⟩ := by
    simp [Manager.structuralDiffPage, Nat.pos_iff_ne_zero.mp hlimit, withCapacity, hfits, heq]
  rw [hpage]
  exact .of_take hit hdone

/-- A resumed page. -/
theorem structuralDiffPage_some (h : CursorMeans p fuel base other cursor ds) (hlimit : 0 < limit)
    (hfits : VecFits diffSize limit) :
    PageSpec p fuel base other limit ds
      (p.structuralDiffPage fuel base other (some cursor) limit) := by
  obtain ⟨it0, hfrom, hit0⟩ := h
  obtain ⟨it, heq, hit, hdone⟩ := hit0.take_spec limit
  have hmatches : cursor.matchesTrees base other = true := by
    by_contra hne
    rw [Bool.not_eq_true] at hne
    simp [fromCursor, hne] at hfrom
  have hpage : p.structuralDiffPage fuel base other (some cursor) limit =
      .ok ⟨ds.take limit, it.checkpoint⟩ := by
    simp [Manager.structuralDiffPage, hmatches, Nat.pos_iff_ne_zero.mp hlimit, hfrom, withCapacity,
      hfits, heq]
  rw [hpage]
  exact .of_take hit hdone

/-- One page and the pages after it. -/
theorem collectPages_succ {i : Nat} {cursor : Option StructuralDiffCursor}
    (hpage : PageSpec p fuel base other (limits i) ds
      (p.structuralDiffPage fuel base other cursor (limits i)))
    (hrest : ∀ next, CursorMeans p fuel base other next (ds.drop (limits i)) →
      limits i ≤ ds.length →
      p.collectPages fuel base other limits calls (i + 1) (some next) =
        .ok (some (ds.drop (limits i)))) :
    p.collectPages fuel base other limits (calls + 1) i cursor = .ok (some ds) := by
  obtain ⟨next, hpage, hnext⟩ := hpage
  cases next with
  | none => simp [Manager.collectPages, hpage, take_of_length_le hnext]
  | some next => simp [Manager.collectPages, hpage, hrest next hnext.2 hnext.1]

/-- Resumed pages give the remaining differences. Every page but the last takes at least
one, so as many pages as there are differences suffice. -/
theorem collectPages_some (hlimits : ∀ i, 0 < limits i ∧ VecFits diffSize (limits i))
    (hcalls : ds.length < calls) (i : Nat)
    (h : CursorMeans p fuel base other cursor ds) :
    p.collectPages fuel base other limits calls i (some cursor) = .ok (some ds) := by
  induction calls generalizing cursor ds i with
  | zero => exact absurd hcalls (Nat.not_lt_zero _)
  | succ calls ih =>
    obtain ⟨hi, hfits⟩ := hlimits i
    refine collectPages_succ (structuralDiffPage_some h hi hfits) fun next hnext hle => ?_
    exact ih (by rw [length_drop]; omega) (i + 1) hnext

end Pages

section

open Reversed

end

end Prolly

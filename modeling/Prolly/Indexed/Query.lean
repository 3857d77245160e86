import Mathlib.Data.List.Forall2
import Prolly.Indexed.State
import Prolly.Scan.Path

/-!
# Prolly.Indexed.Query

Queries on one index of a snapshot (`secondary_index/snapshot.rs`): a visit of all matches, and
pages with a cursor to go on from.

A query is a scan of one interval of physical keys, forward or backward, with a visitor that
charges a budget and decodes each entry. The scans hand the entries of the interval to the
visitor in order (`Manager.scanForwardUntil_eq`, `Manager.scanRangeReverseUntil_eq`), and the
interval holds the entries whose term is asked for (`physicalBounds_spec`); what is left is what
the two visitors do on a list of entries, `visitAll_scanVisitor` and `visitAll_pageVisitor`.
-/

namespace Prolly

open SortedAssoc (Sorted sorted_cons sorted_append)
open List

/-- `SecondaryIndexMatch`. -/
structure SecondaryIndexMatch where
  term : Bytes
  primaryKey : Bytes
  projection : Option Bytes
  deriving DecidableEq

/-- `SecondaryIndexDirection`. -/
inductive SecondaryIndexDirection where
  | forward
  | reverse
  deriving DecidableEq

def SecondaryIndexDirection.order {α : Type} : SecondaryIndexDirection → List α → List α
  | forward, xs => xs
  | reverse, xs => xs.reverse

/-- `SnapshotContext`. -/
structure SnapshotContext where
  snapshot : Cid
  sourceVersion : Cid
  stateVersion : Cid
  deriving DecidableEq

/-- `SecondaryIndexCursor`. -/
structure SecondaryIndexCursor where
  snapshot : Cid
  sourceVersion : Cid
  stateVersion : Cid
  indexName : Bytes
  indexVersion : Cid
  definitionFingerprint : Cid
  direction : SecondaryIndexDirection
  bounds : LogicalBounds
  rawKey : Option Bytes
  deriving DecidableEq

/-- `SecondaryIndexPage`; `rows` are its `matches`. -/
structure SecondaryIndexPage where
  rows : List SecondaryIndexMatch
  nextCursor : Option SecondaryIndexCursor
  deriving DecidableEq

/-- `SecondaryIndexSnapshot`. Its `index` is a snapshot of `selected.tree`; the source tree is
read by no query modelled here. -/
structure SecondaryIndexSnapshot where
  prolly : Manager
  /-- `MapVersionId::for_tree`. -/
  versionId : Tree → Cid
  snapshotId : SnapshotContext
  descriptor : IndexDescriptor
  selected : IndexSnapshotRef
  maxProjectionBytes : Nat

namespace SecondaryIndexSnapshot

variable (ix : SecondaryIndexSnapshot)

/-! ### Decoding a match -/

/-- The projection of a stored value, where it is one of the descriptor's kind. -/
def projectionOf (stored : IndexValue) : IndexResult (Option Bytes) :=
  match ix.descriptor.projection, stored with
  | .keysOnly, .keysOnly => .ok none
  | .included, .included bytes => .ok (some bytes)
  | .all, .fullSource bytes => .ok (some bytes)
  | _, _ => .error (.indexSnapshotMismatch ix.descriptor.name ix.snapshotId.sourceVersion
      "stored projection value does not match its descriptor")

/-- The body of `decode_match` and `decode_match_ref`, which differ in how they read the key. -/
def decodeMatchWith (decodeKey : Bytes → IndexResult DecodedPhysicalIndexKey)
    (key value : Bytes) : IndexResult SecondaryIndexMatch := do
  let decoded ← decodeKey key
  let stored ← IndexValue.fromBytes value ix.maxProjectionBytes
  .ok ⟨decoded.term, decoded.primaryKey, ← ix.projectionOf stored⟩

/-- `decode_match`. -/
def decodeMatch : Bytes → Bytes → IndexResult SecondaryIndexMatch :=
  ix.decodeMatchWith decodePhysicalIndexKey

/-- `decode_match_ref`. -/
def decodeMatchRef : Bytes → Bytes → IndexResult SecondaryIndexMatch :=
  ix.decodeMatchWith decodePhysicalIndexKeyRef

/-! ### Visiting all matches -/

structure ScanCharges where
  scanned : Nat := 0
  returned : Nat := 0
  returnedBytes : Nat := 0

/-- The charges of one more entry. -/
def ScanCharges.add (charges : ScanCharges) (e : Entry) : ScanCharges :=
  ⟨saturatingAdd charges.scanned 1, saturatingAdd charges.returned 1,
    saturatingAdd (saturatingAdd charges.returnedBytes e.1.length) e.2.length⟩

def ScanCharges.over (charges : ScanCharges) (budget : QueryBudget) (elapsed : Nat) : Bool :=
  budget.maxScannedEntries < charges.scanned || budget.maxReturnedEntries < charges.returned ||
    budget.maxReturnedBytes < charges.returnedBytes ||
    budget.maxAccountedMemoryBytes < charges.returnedBytes || budget.maxElapsed < elapsed

/-- A visitor of matches: `FnMut(SecondaryIndexMatchRef) -> ControlFlow<B>`. -/
abbrev MatchVisitor (σ β : Type) := σ → SecondaryIndexMatch → σ × Option β

variable {σ β : Type}

/-- The closure of `scan_matches_until_with_budget`. -/
def scanVisitor (budget : QueryBudget) (clock : Nat → Nat) (visit : MatchVisitor σ β) :
    Visitor (ScanCharges × σ) (IndexResult β) := fun (charges, s) e =>
  let elapsed := clock charges.scanned
  let charges := charges.add e
  if charges.over budget elapsed then
    ((charges, s), some (.error (.indexResourceLimitExceeded "query_scan_budget"
      (min budget.maxScannedEntries budget.maxReturnedEntries)
      (max charges.scanned charges.returned))))
  else
    match ix.decodeMatchRef e.1 e.2 with
    | .error error => ((charges, s), some (.error error))
    | .ok row =>
      match visit s row with
      | (s, none) => ((charges, s), none)
      | (s, some value) => ((charges, s), some (.ok value))

/-- `scan_matches_until_with_budget`. -/
def scanMatchesUntilWithBudget (fuel : Nat) (bounds : LogicalBounds)
    (direction : SecondaryIndexDirection) (budget : QueryBudget) (clock : Nat → Nat)
    (visit : MatchVisitor σ β) (s : σ) : IndexResult (σ × ScanOutcome β) := do
  budget.validate
  let physical ← physicalBounds bounds
  let ((_, s), outcome) ← ofEngine (match direction with
    | .forward => ix.prolly.scanRangeUntil fuel ix.selected.tree physical.start physical.stop
        (ix.scanVisitor budget clock visit) ({}, s)
    | .reverse => ix.prolly.scanRangeReverseUntil fuel ix.selected.tree physical.start
        physical.stop (ix.scanVisitor budget clock visit) ({}, s))
  match outcome.stopped with
  | some (.ok value) => .ok (s, ⟨outcome.visited, some value⟩)
  | some (.error error) => .error error
  | none => .ok (s, ⟨outcome.visited, none⟩)

/-! ### Pages -/

/-- The cursor of a query on this index that goes on behind `rawKey`. -/
def cursorAt (bounds : LogicalBounds) (direction : SecondaryIndexDirection)
    (rawKey : Option Bytes) : SecondaryIndexCursor where
  snapshot := ix.snapshotId.snapshot
  sourceVersion := ix.snapshotId.sourceVersion
  stateVersion := ix.snapshotId.stateVersion
  indexName := ix.descriptor.name
  indexVersion := ix.versionId ix.selected.tree
  definitionFingerprint := ix.descriptor.fingerprint
  direction := direction
  bounds := bounds
  rawKey := rawKey

/-- `validate_cursor`. -/
def validateCursor (cursor : SecondaryIndexCursor) (bounds : LogicalBounds)
    (direction : SecondaryIndexDirection) : IndexResult Unit := do
  let valid := cursor.snapshot = ix.snapshotId.snapshot &&
    cursor.sourceVersion = ix.snapshotId.sourceVersion &&
    cursor.stateVersion = ix.snapshotId.stateVersion &&
    cursor.indexName = ix.descriptor.name &&
    cursor.indexVersion = ix.versionId ix.selected.tree &&
    cursor.definitionFingerprint = ix.descriptor.fingerprint &&
    cursor.direction = direction && cursor.bounds = bounds
  let physicalKeyValid ← match cursor.rawKey with
    | none => .ok true
    | some rawKey => do
        let physical ← physicalBounds bounds
        .ok (physical.start ≤ rawKey && !endsBeforeOrAt physical.stop rawKey &&
          (decodePhysicalIndexKey rawKey).isOk)
  ensure (valid && physicalKeyValid) .indexCursorVersionMismatch

def checkCursor (cursor : Option SecondaryIndexCursor) (bounds : LogicalBounds)
    (direction : SecondaryIndexDirection) : IndexResult Unit :=
  match cursor with
  | some cursor => ix.validateCursor cursor bounds direction
  | none => .ok ()

/-- The variables of `page` that its closure changes. -/
structure PageState where
  rows : List SecondaryIndexMatch := []
  returnedBytes : Nat := 0
  accountedMemory : Nat := 0
  scanned : Nat := 0
  hasMore : Bool := false
  rawKey : Option Bytes := none

/-- What a page holds of a match. -/
def retainedBytes (row : SecondaryIndexMatch) : Nat :=
  row.term.length + row.primaryKey.length + (row.projection.map length).getD 0

/-- A match is decoded and charged. -/
def takeMatch (budget : QueryBudget) (elapsed : Nat) (st : PageState) (e : Entry) :
    IndexResult PageState := do
  let row ← ix.decodeMatch e.1 e.2
  let returnedBytes ← charge "query_returned_bytes" st.returnedBytes (retainedBytes row)
    budget.maxReturnedBytes
  let accountedMemory ← charge "query_accounted_memory_bytes" st.accountedMemory
    (retainedBytes row) budget.maxAccountedMemoryBytes
  checkElapsed "query_elapsed_millis" elapsed budget.maxElapsed
  .ok { st with
    rows := st.rows ++ [row], returnedBytes, accountedMemory, rawKey := some e.1 }

/-- The closure of `page`. -/
def pageVisitor (budget : QueryBudget) (clock : Nat → Nat) (direction : SecondaryIndexDirection)
    (limit : Nat) (after : Option Bytes) : Visitor PageState (IndexResult Unit) := fun st e =>
  if direction = .forward && after.any (fun after => e.1 ≤ after) then (st, none)
  else
    let elapsed := clock st.scanned
    let st := { st with scanned := saturatingAdd st.scanned 1 }
    if budget.maxScannedEntries < st.scanned then
      (st, some (.error (.indexResourceLimitExceeded "query_scanned_entries"
        budget.maxScannedEntries st.scanned)))
    else if st.rows.length = limit then ({ st with hasMore := true }, some (.ok ()))
    else
      match ix.takeMatch budget elapsed st e with
      | .error error => (st, some (.error error))
      | .ok st => (st, none)

/-- `size_of::<SecondaryIndexMatch>()`. -/
def matchSize : Nat := 72

/-- `page`. -/
def page (fuel : Nat) (bounds : LogicalBounds) (direction : SecondaryIndexDirection)
    (cursor : Option SecondaryIndexCursor) (limit : Nat) (budget : QueryBudget)
    (clock : Nat → Nat) : IndexResult SecondaryIndexPage := do
  budget.validate
  let maxPageEntries := min budget.maxPageEntries budget.maxReturnedEntries
  ensure (limit ≤ maxPageEntries)
    (.indexResourceLimitExceeded "query_page_entries" maxPageEntries limit)
  ix.checkCursor cursor bounds direction
  if limit = 0 then
    .ok ⟨[], some (cursor.getD (ix.cursorAt bounds direction none))⟩
  else do
    let physical ← physicalBounds bounds
    ofEngine (withCapacity matchSize limit)
    let after := cursor.bind (·.rawKey)
    let visitor := ix.pageVisitor budget clock direction limit after
    let (st, outcome) ← ofEngine (match direction with
      | .forward => ix.prolly.scanRangeUntil fuel ix.selected.tree (after.getD physical.start)
          physical.stop visitor {}
      | .reverse => ix.prolly.scanRangeReverseUntil fuel ix.selected.tree physical.start
          (after.or physical.stop) visitor {})
    match outcome.stopped with
    | some (.error error) => .error error
    | _ => .ok ⟨st.rows, if st.hasMore then some (ix.cursorAt bounds direction st.rawKey)
        else none⟩

/-- `collect_page`. -/
def collectPage (page : SecondaryIndexPage) : IndexResult (List SecondaryIndexMatch) :=
  let limit := ({} : QueryBudget).maxReturnedEntries
  if page.nextCursor.isSome then
    .error (.indexResourceLimitExceeded "query_returned_entries" limit (saturatingAdd limit 1))
  else .ok page.rows

/-- `exact`, `prefix` and `range`: all matches as one page. -/
def collect (fuel : Nat) (bounds : LogicalBounds) (clock : Nat → Nat) :
    IndexResult (List SecondaryIndexMatch) := do
  collectPage (← ix.page fuel bounds .forward none ({} : QueryBudget).maxReturnedEntries {} clock)

/-- Following `next_cursor` from page to page; `fetch i cursor` is the `i`-th page. -/
def followPages (fetch : Nat → Option SecondaryIndexCursor → IndexResult SecondaryIndexPage) :
    Nat → Nat → Option SecondaryIndexCursor → IndexResult (List SecondaryIndexMatch)
  | 0, _, _ => .error (.engine .outOfFuel)
  | pages + 1, i, cursor => do
      let page ← fetch i cursor
      match page.nextCursor with
      | none => .ok page.rows
      | some cursor => do
          .ok (page.rows ++ (← followPages fetch pages (i + 1) (some cursor)))

/-! ### What an index tree stores -/

def Stores (e : Entry) (row : SecondaryIndexMatch) : Prop :=
  physicalIndexKey row.term row.primaryKey = .ok e.1 ∧
    ∃ stored : IndexValue, stored.toBytes = .ok e.2 ∧
      stored.payload.length ≤ ix.maxProjectionBytes ∧ ix.projectionOf stored = .ok row.projection

/-- How many bytes the entry for a match has. -/
def storedBytes (row : SecondaryIndexMatch) : Nat :=
  (encodeSegment row.term).length + (encodeSegment row.primaryKey).length +
    match row.projection with
    | none => 0
    | some projection => 13 + projection.length

variable {ix} {e : Entry} {row : SecondaryIndexMatch} {es : List Entry}
  {rows : List SecondaryIndexMatch} {bounds : LogicalBounds} {physical : TermBounds}

theorem Stores.decodeMatchWith (h : ix.Stores e row)
    {decodeKey : Bytes → IndexResult DecodedPhysicalIndexKey}
    (hkey : decodeKey e.1 = .ok ⟨row.term, row.primaryKey⟩) :
    ix.decodeMatchWith decodeKey e.1 e.2 = .ok row := by
  obtain ⟨-, stored, hbytes, hmax, hprojection⟩ := h
  simp only [SecondaryIndexSnapshot.decodeMatchWith, hkey, ok_bind,
    IndexValue.fromBytes_toBytes hbytes hmax, hprojection]

theorem Stores.decodeMatch (h : ix.Stores e row) : ix.decodeMatch e.1 e.2 = .ok row :=
  h.decodeMatchWith (decodePhysicalIndexKey_eq h.1)

theorem Stores.decodeMatchRef (h : ix.Stores e row) : ix.decodeMatchRef e.1 e.2 = .ok row :=
  h.decodeMatchWith (decodePhysicalIndexKeyRef_eq h.1)

theorem Stores.length (h : ix.Stores e row) : e.1.length + e.2.length = storedBytes row := by
  obtain ⟨hkey, stored, hbytes, -, hprojection⟩ := h
  have hvalue := IndexValue.toBytes_length hbytes
  have hprojection : e.2.length = match row.projection with
      | none => 0
      | some projection => 13 + projection.length := by
    unfold projectionOf at hprojection
    split at hprojection <;> first | cases hprojection | skip
    all_goals
      rw [← Except.ok.inj hprojection]
      exact hvalue
  rw [hprojection, physicalIndexKey_eq hkey, length_append]
  rfl

/-- The entries of the interval of a query are those whose term is asked for. -/
theorem stores_filter (hrows : es.Forall₂ ix.Stores rows)
    (hbounds : physicalBounds bounds = .ok physical) :
    (entriesIn physical.start false physical.stop es).Forall₂ ix.Stores
      (rows.filter fun row => bounds.matches row.term) := by
  refine rel_filter (fun e row h => ?_) hrows
  have hspec := physicalBounds_spec hbounds row.term (encodeSegment row.primaryKey)
  rw [← physicalIndexKey_eq h.1] at hspec
  simp only [← hspec, startsAt, Bool.false_eq_true, if_false, Bool.and_eq_true,
    Bool.not_eq_true', decide_eq_false_iff_not, not_lt]

/-- Index trees list their matches by term and then by primary key. -/
theorem stores_sorted (hs : Sorted es) (hrows : es.Forall₂ ix.Stores rows) :
    rows.Pairwise fun a b => a.term < b.term ∨ a.term = b.term ∧ a.primaryKey < b.primaryKey := by
  induction hrows with
  | nil => exact .nil
  | @cons e row es rows h hrows ih =>
    obtain ⟨hlt, hs⟩ := sorted_cons.mp hs
    refine .cons (fun row' hrow' => ?_) (ih hs)
    obtain ⟨e', he', h'⟩ : ∃ e' ∈ es, ix.Stores e' row' := by
      obtain ⟨i, hi, rfl⟩ := getElem_of_mem hrow'
      have hi' : i < es.length := hrows.length_eq ▸ hi
      exact ⟨es[i], getElem_mem hi', hrows.get hi' hi⟩
    exact (physicalIndexKey_lt_iff h.1 h'.1).mp (hlt e' he')

/-! ### Visiting is exact -/

/-- The visitor called on a list of matches in order, until it breaks. -/
def visitRows (visit : MatchVisitor σ β) : σ → Nat → List SecondaryIndexMatch → σ × ScanOutcome β
  | s, visited, [] => (s, ⟨visited, none⟩)
  | s, visited, row :: rows =>
    match visit s row with
    | (s, some value) => (s, ⟨visited + 1, some value⟩)
    | (s, none) => visitRows visit s (visited + 1) rows

/-- The budget covers the charges and those of the matches to come. -/
structure CoversFrom (budget : QueryBudget) (clock : Nat → Nat) (charges : ScanCharges)
    (rows : List SecondaryIndexMatch) : Prop where
  scanned : charges.scanned + rows.length ≤ budget.maxScannedEntries
  returned : charges.returned + rows.length ≤ budget.maxReturnedEntries
  returnedBytes : charges.returnedBytes + (rows.map storedBytes).sum ≤ budget.maxReturnedBytes
  accounted :
    charges.returnedBytes + (rows.map storedBytes).sum ≤ budget.maxAccountedMemoryBytes
  elapsed : ∀ n, clock n ≤ budget.maxElapsed

variable {budget : QueryBudget} {clock : Nat → Nat}

theorem CoversFrom.tail {charges : ScanCharges} {rows : List SecondaryIndexMatch}
    (hcovers : CoversFrom budget clock charges (row :: rows)) (h : ix.Stores e row) :
    CoversFrom budget clock (charges.add e) rows := by
  obtain ⟨h1, h2, h3, h4, h5⟩ := hcovers
  simp only [length_cons, map_cons, sum_cons, ← h.length] at h1 h2 h3 h4
  have hscanned : (charges.add e).scanned ≤ charges.scanned + 1 := saturatingAdd_le _ _
  have hreturned : (charges.add e).returned ≤ charges.returned + 1 := saturatingAdd_le _ _
  have hbytes : (charges.add e).returnedBytes ≤
      charges.returnedBytes + e.1.length + e.2.length :=
    (saturatingAdd_le _ _).trans (Nat.add_le_add_right (saturatingAdd_le _ _) _)
  exact ⟨by omega, by omega, by omega, by omega, h5⟩

theorem CoversFrom.not_over {charges : ScanCharges} {n : Nat}
    (hcovers : CoversFrom budget clock charges rows) : charges.over budget (clock n) = false := by
  obtain ⟨h1, h2, h3, h4, h5⟩ := hcovers
  have h5 := h5 n
  simp only [ScanCharges.over, Bool.or_eq_false_iff, decide_eq_false_iff_not]
  omega

variable (budget clock) in
/-- On the entries of matches the visitor does what the caller's visitor does on the matches,
as long as the budget lasts. -/
theorem visitAll_scanVisitor (hrows : es.Forall₂ ix.Stores rows) (visit : MatchVisitor σ β)
    (charges : ScanCharges) (s : σ) (n : Nat) :
    let result := visitAll (ix.scanVisitor budget clock visit) (charges, s) n es
    let expected := visitRows visit s n rows
    (result.1.2 = expected.1 ∧ result.2.visited = expected.2.visited ∧
      result.2.stopped = expected.2.stopped.map .ok) ∨
    (¬ CoversFrom budget clock charges rows ∧ ∃ limit actual, result.2.stopped =
      some (.error (.indexResourceLimitExceeded "query_scan_budget" limit actual))) := by
  induction hrows generalizing charges s n with
  | nil => exact .inl ⟨rfl, rfl, rfl⟩
  | @cons e row es rows h hrows ih =>
    simp only [visitAll, visitRows, scanVisitor]
    by_cases hover : (charges.add e).over budget (clock charges.scanned) = true
    · refine .inr ⟨fun hcovers => ?_, _, _, by rw [if_pos hover]⟩
      rw [(hcovers.tail h).not_over] at hover
      cases hover
    · rw [if_neg hover, h.decodeMatchRef]
      dsimp only
      rcases hvisit : visit s row with ⟨s', _ | value⟩
      · rcases ih (charges.add e) s' (n + 1) with hok | ⟨hcovers, hstop⟩
        · exact .inl hok
        · exact .inr ⟨fun hall => hcovers (hall.tail h), hstop⟩
      · exact .inl ⟨rfl, rfl, rfl⟩

variable {α γ : Type} {st : PageState} {direction : SecondaryIndexDirection} {limit : Nat}
  {start : Bytes} {stop : Option Bytes} {visited todo : List Entry} {last : Entry}

/-- Both scans hand the entries of an interval to the visitor in the order of the direction. -/
theorem scan_eq (hholds : Holds ix.prolly ix.selected.tree.root es)
    (direction : SecondaryIndexDirection) (start : Bytes) (stop : Option Bytes)
    (visitor : Visitor α γ) (s : α) :
    Enough fun fuel => (match direction with
      | .forward => ix.prolly.scanRangeUntil fuel ix.selected.tree start stop visitor s
      | .reverse => ix.prolly.scanRangeReverseUntil fuel ix.selected.tree start stop visitor s) =
      .ok (visitAll visitor s 0 (direction.order (entriesIn start false stop es))) := by
  cases direction with
  | forward => exact Manager.scanForwardUntil_eq hholds start stop false visitor s
  | reverse => exact Manager.scanRangeReverseUntil_eq hholds start stop visitor s

theorem stores_order (hrows : es.Forall₂ ix.Stores rows) (direction : SecondaryIndexDirection) :
    (direction.order es).Forall₂ ix.Stores (direction.order rows) := by
  cases direction with
  | forward => exact hrows
  | reverse => exact rel_reverse hrows

theorem scanMatches_eq (hholds : Holds ix.prolly ix.selected.tree.root es)
    (hrows : es.Forall₂ ix.Stores rows) (hbounds : physicalBounds bounds = .ok physical)
    (hbudget : budget.validate = .ok ()) (direction : SecondaryIndexDirection)
    (visit : MatchVisitor σ β) (s : σ) :
    let answer := direction.order (rows.filter fun row => bounds.matches row.term)
    Enough fun fuel =>
      let result := ix.scanMatchesUntilWithBudget fuel bounds direction budget clock visit s
      result = .ok (visitRows visit s 0 answer) ∨
      (¬ CoversFrom budget clock {} answer ∧ ∃ limit actual,
        result = .error (.indexResourceLimitExceeded "query_scan_budget" limit actual)) := by
  intro answer
  have hstored : (direction.order (entriesIn physical.start false physical.stop es)).Forall₂
      ix.Stores answer := stores_order (stores_filter hrows hbounds) direction
  refine (scan_eq hholds direction physical.start physical.stop
    (ix.scanVisitor budget clock visit) ({}, s)).mono fun fuel hscan => ?_
  simp only [scanMatchesUntilWithBudget, hbudget, hbounds, ok_bind, hscan, ofEngine]
  rcases visitAll_scanVisitor budget clock hstored visit {} s 0 with
    ⟨hstate, hvisited, hstopped⟩ | ⟨hcovers, limit, actual, hstopped⟩
  · left
    rw [hstopped, hstate, hvisited]
    rcases visitRows visit s 0 answer with ⟨s', visited, _ | value⟩ <;> rfl
  · exact .inr ⟨hcovers, limit, actual, by rw [hstopped]⟩

/-! ### Pages put end to end -/

/-- The budget allows a page of `limit` matches when `rows` are left. -/
structure AllowsPage (budget : QueryBudget) (clock : Nat → Nat) (limit : Nat)
    (rows : List SecondaryIndexMatch) : Prop where
  page : limit ≤ min budget.maxPageEntries budget.maxReturnedEntries
  /-- The budget's own caps may be larger than any vector. -/
  capacity : VecFits matchSize limit
  /-- One entry behind the page is scanned to know whether there is one. -/
  scanned : min (limit + 1) rows.length ≤ budget.maxScannedEntries
  returnedBytes : ((rows.take limit).map retainedBytes).sum ≤ budget.maxReturnedBytes
  accounted : ((rows.take limit).map retainedBytes).sum ≤ budget.maxAccountedMemoryBytes
  elapsed : ∀ n, clock n ≤ budget.maxElapsed

/-- Entries that a visitor skips do not matter. -/
theorem visitAll_filter {visitor : Visitor α γ} {wanted : Entry → Bool}
    (hskip : ∀ s e, wanted e = false → visitor s e = (s, none)) (s : α) (n m : Nat)
    (es : List Entry) :
    (visitAll visitor s n es).1 = (visitAll visitor s m (es.filter wanted)).1 ∧
    (visitAll visitor s n es).2.stopped =
      (visitAll visitor s m (es.filter wanted)).2.stopped := by
  induction es generalizing s n m with
  | nil => exact ⟨rfl, rfl⟩
  | cons e es ih =>
    cases hwanted : wanted e with
    | false =>
      rw [filter_cons_of_neg (by simp [hwanted]), visitAll, hskip s e hwanted]
      exact ih s (n + 1) m
    | true =>
      rw [filter_cons_of_pos hwanted, visitAll, visitAll]
      rcases visitor s e with ⟨s', _ | value⟩
      · exact ih s' (n + 1) (m + 1)
      · exact ⟨rfl, rfl⟩

def PageState.taken (st : PageState) (e : Entry) (row : SecondaryIndexMatch) : PageState :=
  { st with
    rows := st.rows ++ [row], returnedBytes := st.returnedBytes + retainedBytes row,
    accountedMemory := st.accountedMemory + retainedBytes row, rawKey := some e.1 }

theorem takeMatch_eq (h : ix.Stores e row) {elapsed : Nat}
    (hreturned : st.returnedBytes + retainedBytes row ≤ budget.maxReturnedBytes)
    (haccounted : st.accountedMemory + retainedBytes row ≤ budget.maxAccountedMemoryBytes)
    (helapsed : elapsed ≤ budget.maxElapsed) :
    ix.takeMatch budget elapsed st e = .ok (st.taken e row) := by
  simp only [takeMatch, h.decodeMatch, ok_bind, charge,
    if_neg (Nat.not_lt.mpr hreturned), if_neg (Nat.not_lt.mpr haccounted), checkElapsed,
    if_neg (Nat.not_lt.mpr helapsed)]
  rfl

/-- What the page's visitor leaves behind on the entries of matches: with room for `room` more
matches it takes them and notes whether there is another one. -/
theorem visitAll_pageVisitor (hrows : es.Forall₂ ix.Stores rows) {after : Option Bytes}
    (hafter : ∀ e ∈ es, (direction = .forward && after.any (fun after => e.1 ≤ after)) = false)
    {room : Nat} (hroom : st.rows.length + room = limit) (hmore : st.hasMore = false)
    (hcount : st.scanned ≤ st.rows.length)
    (hscanned : min (limit + 1) (st.rows.length + rows.length) ≤ budget.maxScannedEntries)
    (hreturned : st.returnedBytes + ((rows.take room).map retainedBytes).sum ≤
      budget.maxReturnedBytes)
    (haccounted : st.accountedMemory + ((rows.take room).map retainedBytes).sum ≤
      budget.maxAccountedMemoryBytes) (helapsed : ∀ n, clock n ≤ budget.maxElapsed) (n : Nat) :
    let result := visitAll (ix.pageVisitor budget clock direction limit after) st n es
    result.1.rows = st.rows ++ rows.take room ∧
    result.1.hasMore = decide (room < rows.length) ∧
    result.1.rawKey = ((es.take room).getLast?.map Prod.fst).or st.rawKey ∧
    ∀ error, result.2.stopped ≠ some (.error error) := by
  induction hrows generalizing st room n with
  | nil =>
    refine ⟨by simp [visitAll], ?_, by simp [visitAll], by simp [visitAll]⟩
    simpa [visitAll] using hmore
  | @cons e row es rows h hrows ih =>
    have hwanted := hafter e mem_cons_self
    rw [length_cons] at hscanned
    have hscans : saturatingAdd st.scanned 1 ≤ st.scanned + 1 := saturatingAdd_le _ _
    have hwithin : ¬ budget.maxScannedEntries < saturatingAdd st.scanned 1 := by omega
    simp only [visitAll, pageVisitor, hwanted, Bool.false_eq_true, if_false, if_neg hwithin]
    cases room with
    | zero =>
      -- the page is full: this entry is the one behind it
      rw [if_pos (by omega)]
      refine ⟨by simp, by simp, by simp, ?_⟩
      intro error herror
      cases herror
    | succ room =>
      simp only [take_succ_cons, map_cons, sum_cons] at hreturned haccounted
      rw [if_neg (by omega), takeMatch_eq h (by dsimp only; omega) (by dsimp only; omega)
        (helapsed _)]
      set st' := PageState.taken { st with scanned := saturatingAdd st.scanned 1 } e row
      have hlength : st'.rows.length = st.rows.length + 1 := by simp [st', PageState.taken]
      have hbytes : st'.returnedBytes = st.returnedBytes + retainedBytes row ∧
          st'.accountedMemory = st.accountedMemory + retainedBytes row := ⟨rfl, rfl⟩
      have hscans' : st'.scanned ≤ st.scanned + 1 := hscans
      have hroom' : st'.rows.length + room = limit := by omega
      obtain ⟨hr, hm, hk, hstop⟩ := ih (fun e he => hafter e (.tail _ he))
        hroom' hmore (by omega) (by omega) (by omega) (by omega) (n + 1)
      refine ⟨by simpa [st', PageState.taken] using hr, by simpa using hm, ?_, hstop⟩
      rw [hk, take_succ_cons]
      cases htake : es.take room with
      | nil => simp [st', PageState.taken]
      | cons e' es' =>
        rw [getLast?_cons_cons]
        cases hlast : (e' :: es').getLast? with
        | none => simp at hlast
        | some last => rfl

/-! ### Going on behind a page -/

/-- Behind the last of the entries already visited, going forward. -/
theorem entriesIn_behind (hs : Sorted es) (hsplit : entriesIn start false stop es = visited ++ todo)
    (hlast : visited.getLast? = some last) :
    (entriesIn last.1 false stop es).filter (fun e => !decide (e.1 ≤ last.1)) = todo := by
  obtain ⟨before, rfl⟩ := getLast?_eq_some_iff.mp hlast
  have hsorted : Sorted (before ++ [last] ++ todo) := hsplit ▸ hs.filter _
  obtain ⟨hbefore, -, hbehind⟩ := sorted_append.mp hsorted
  have hle : ∀ e ∈ before ++ [last], e.1 ≤ last.1 := by
    intro e he
    rcases mem_append.mp he with he | he
    · exact ((sorted_append.mp hbefore).2.2 e he last (mem_singleton_self _)).le
    · rw [mem_singleton.mp he]
  have hmem : last ∈ entriesIn start false stop es := by simp [hsplit]
  have hstart : start ≤ last.1 := by
    have h := (mem_filter.mp hmem).2
    simp only [startsAt, Bool.false_eq_true, if_false, Bool.and_eq_true, Bool.not_eq_true',
      decide_eq_false_iff_not, not_lt] at h
    exact h.1
  calc (entriesIn last.1 false stop es).filter (fun e => !decide (e.1 ≤ last.1))
      = (entriesIn start false stop es).filter (fun e => !decide (e.1 ≤ last.1)) := by
        rw [entriesIn, entriesIn, filter_filter, filter_filter]
        refine filter_congr fun e _ => ?_
        by_cases hlt : e.1 ≤ last.1
        · simp [hlt]
        · have hlt' : last.1 < e.1 := not_le.mp hlt
          simp [startsAt, hlt, hlt'.not_gt, (hstart.trans_lt hlt').not_gt]
    _ = todo := by
        rw [hsplit, filter_append, filter_eq_nil_iff.mpr fun e he => by simp [hle e he],
          nil_append, filter_eq_self]
        intro e he
        simp [hbehind last (by simp) e he]

/-- Behind the last of the entries already visited, going backward. -/
theorem entriesIn_before (hs : Sorted es)
    (hsplit : (entriesIn start false stop es).reverse = visited ++ todo)
    (hlast : visited.getLast? = some last) :
    (entriesIn start false (some last.1) es).reverse = todo := by
  obtain ⟨before, rfl⟩ := getLast?_eq_some_iff.mp hlast
  have hall : entriesIn start false stop es = todo.reverse ++ (last :: before.reverse) := by
    have h := congrArg reverse hsplit
    simpa using h
  have hsorted : Sorted (todo.reverse ++ (last :: before.reverse)) := hall ▸ hs.filter _
  obtain ⟨-, hrest, hbelow⟩ := sorted_append.mp hsorted
  have hmem : last ∈ entriesIn start false stop es := by simp [hall]
  have hstop : endsBeforeOrAt stop last.1 = false := by
    have h := (mem_filter.mp hmem).2
    simp only [Bool.and_eq_true, Bool.not_eq_true'] at h
    exact h.2
  have hcut : entriesIn start false (some last.1) es =
      (entriesIn start false stop es).filter (fun e => decide (e.1 < last.1)) := by
    rw [entriesIn, entriesIn, filter_filter]
    refine filter_congr fun e _ => ?_
    by_cases hlt : e.1 < last.1
    · have hends : endsBeforeOrAt stop e.1 = false :=
        Bool.eq_false_iff.mpr fun h => Bool.eq_false_iff.mp hstop (endsBeforeOrAt_mono hlt.le h)
      have hcut : endsBeforeOrAt (some last.1) e.1 = false := by simp [endsBeforeOrAt, hlt]
      simp [hcut, hlt, hends]
    · have hcut : endsBeforeOrAt (some last.1) e.1 = true := by
        simpa [endsBeforeOrAt] using hlt
      simp [hcut, hlt]
  rw [hcut, hall, filter_append, filter_eq_self.mpr fun e he => by
      simp [hbelow e he last mem_cons_self], filter_eq_nil_iff.mpr ?_]
  · simp
  · intro e he
    rcases mem_cons.mp he with rfl | he
    · simp
    · simp [((sorted_cons.mp hrest).1 e he).not_gt]

/-- The key a page goes on behind: the last one of the pages before. -/
def afterKey (visited : List Entry) : Option Bytes := visited.getLast?.map Prod.fst

/-- The scan of a page shows its visitor the entries that are left. -/
theorem scan_rest (hholds : Holds ix.prolly ix.selected.tree.root es)
    (hsplit : direction.order (entriesIn physical.start false physical.stop es) = visited ++ todo)
    {visitor : Visitor PageState γ} (hskip : ∀ st e, direction = .forward →
      (afterKey visited).any (fun after => e.1 ≤ after) = true → visitor st e = (st, none)) :
    Enough fun fuel => ∃ result, (match direction with
      | .forward => ix.prolly.scanRangeUntil fuel ix.selected.tree
          ((afterKey visited).getD physical.start) physical.stop visitor {}
      | .reverse => ix.prolly.scanRangeReverseUntil fuel ix.selected.tree physical.start
          ((afterKey visited).or physical.stop) visitor {}) = .ok result ∧
      result.1 = (visitAll visitor {} 0 todo).1 ∧
      result.2.stopped = (visitAll visitor {} 0 todo).2.stopped := by
  have hs : Sorted es := hholds.sorted
  cases hlast : visited.getLast? with
  | none =>
    obtain rfl : visited = [] := getLast?_eq_none_iff.mp hlast
    refine (scan_eq hholds direction physical.start physical.stop visitor {}).mono
      fun fuel hscan => ⟨visitAll visitor {} 0 todo, ?_, rfl, rfl⟩
    rw [hsplit] at hscan
    cases direction <;> exact hscan
  | some last =>
    have hafter : afterKey visited = some last.1 := by simp [afterKey, hlast]
    cases direction with
    | forward =>
      refine (scan_eq hholds .forward last.1 physical.stop visitor {}).mono
        fun fuel hscan => ⟨_, by simpa [hafter] using hscan, ?_⟩
      rw [← entriesIn_behind hs hsplit hlast]
      refine visitAll_filter (fun st e he => hskip st e rfl ?_) _ _ _ _
      simpa [hafter] using he
    | reverse =>
      refine (scan_eq hholds .reverse physical.start (some last.1) visitor {}).mono
        fun fuel hscan => ⟨_, by simpa [hafter] using hscan, ?_⟩
      rw [show SecondaryIndexDirection.order .reverse
        (entriesIn physical.start false (some last.1) es) = todo from
          entriesIn_before hs hsplit hlast]
      exact ⟨rfl, rfl⟩

variable (ix) in
/-- The cursor behind the entries already visited. -/
def cursorAfter (bounds : LogicalBounds) (direction : SecondaryIndexDirection)
    (visited : List Entry) : Option SecondaryIndexCursor :=
  (afterKey visited).map fun key => ix.cursorAt bounds direction (some key)

theorem exists_cursorAfter (h : visited ≠ []) :
    ∃ cursor, ix.cursorAfter bounds direction visited = some cursor := by
  simp [cursorAfter, afterKey, getLast?_eq_some_getLast h]

theorem exists_stores (hrows : es.Forall₂ ix.Stores rows) (he : e ∈ es) :
    ∃ row, ix.Stores e row := by
  obtain ⟨i, hi, rfl⟩ := getElem_of_mem he
  exact ⟨_, hrows.get hi (hrows.length_eq ▸ hi)⟩

/-- The cursors that pages return are accepted. -/
theorem validateCursor_after (hrows : es.Forall₂ ix.Stores rows)
    (hbounds : physicalBounds bounds = .ok physical)
    (he : e ∈ entriesIn physical.start false physical.stop es) :
    ix.validateCursor (ix.cursorAt bounds direction (some e.1)) bounds direction = .ok () := by
  obtain ⟨hmem, hin⟩ := mem_filter.mp he
  obtain ⟨row, hrow⟩ := exists_stores hrows hmem
  simp only [startsAt, Bool.false_eq_true, if_false, Bool.and_eq_true, Bool.not_eq_true',
    decide_eq_false_iff_not, not_lt] at hin
  simp [validateCursor, cursorAt, hbounds, hin.1, hin.2, decodePhysicalIndexKey_eq hrow.1,
    Except.isOk, Except.toBool]

/-- What is left is behind the last entry visited. -/
theorem not_skipped (hs : Sorted es)
    (hsplit : direction.order (entriesIn start false stop es) = visited ++ todo) :
    ∀ e ∈ todo, (direction = .forward &&
      (afterKey visited).any (fun after => e.1 ≤ after)) = false := by
  intro e he
  cases direction with
  | reverse => rfl
  | forward =>
    unfold afterKey
    cases hlast : visited.getLast? with
    | none => rfl
    | some last =>
      have hsorted : Sorted (visited ++ todo) := hsplit ▸ hs.filter _
      have hlt := (sorted_append.mp hsorted).2.2 last (mem_of_getLast? hlast) e he
      simpa using hlt

section Stored

variable (hholds : Holds ix.prolly ix.selected.tree.root es) (hrows : es.Forall₂ ix.Stores rows)
  (hbounds : physicalBounds bounds = .ok physical)
include hholds hrows hbounds

/-- One page: the next matches, and a cursor behind them where there are more. -/
theorem page_eq (hbudget : budget.validate = .ok ())
    (hsplit : direction.order (entriesIn physical.start false physical.stop es) = visited ++ todo)
    {left : List SecondaryIndexMatch} (hleft : todo.Forall₂ ix.Stores left) (hlimit : 0 < limit)
    (hallows : AllowsPage budget clock limit left) :
    Enough fun fuel => ix.page fuel bounds direction (ix.cursorAfter bounds direction visited) limit
      budget clock = .ok ⟨left.take limit, if limit < left.length then
        ix.cursorAfter bounds direction (visited ++ todo.take limit) else none⟩ := by
  have hmem : ∀ e ∈ visited, e ∈ entriesIn physical.start false physical.stop es := by
    intro e he
    have h : e ∈ direction.order (entriesIn physical.start false physical.stop es) := by
      rw [hsplit]
      exact mem_append_left _ he
    cases direction with
    | forward => exact h
    | reverse => exact mem_reverse.mp h
  have hcursor : ix.checkCursor (ix.cursorAfter bounds direction visited) bounds direction =
      .ok () := by
    unfold checkCursor cursorAfter afterKey
    cases hlast : visited.getLast? with
    | none => rfl
    | some last =>
      exact validateCursor_after hrows hbounds (hmem last (mem_of_getLast? hlast))
  have hafter : (ix.cursorAfter bounds direction visited).bind (·.rawKey) = afterKey visited := by
    unfold cursorAfter
    cases afterKey visited <;> rfl
  have hskip : ∀ st e, direction = .forward →
      (afterKey visited).any (fun after => e.1 ≤ after) = true →
      ix.pageVisitor budget clock direction limit (afterKey visited) st e = (st, none) :=
    fun st e hforward hskip => by simp [pageVisitor, hforward, hskip]
  refine (scan_rest hholds hsplit hskip).mono fun fuel ⟨result, hscan, hstate, hstopped⟩ => ?_
  obtain ⟨hr, hm, hk, hstop⟩ := visitAll_pageVisitor hleft (not_skipped hholds.sorted hsplit)
    (show ({} : PageState).rows.length + limit = limit by simp) rfl (Nat.le_refl _)
    (by simpa using hallows.scanned) (by simpa using hallows.returnedBytes)
    (by simpa using hallows.accounted) hallows.elapsed 0
  simp only [← hstate, ← hstopped] at hr hm hk hstop
  have hpage : ensure (decide (limit ≤ min budget.maxPageEntries budget.maxReturnedEntries))
      (.indexResourceLimitExceeded "query_page_entries"
        (min budget.maxPageEntries budget.maxReturnedEntries) limit) = .ok () := by
    simpa using hallows.page
  simp only [page, hbudget, ok_bind, hpage, hcursor, if_neg hlimit.ne', hbounds, withCapacity,
    if_pos hallows.capacity, hafter, hscan, ofEngine]
  by_cases hmore : limit < left.length
  · obtain ⟨last, hlast⟩ : ∃ last, (todo.take limit).getLast? = some last := by
      cases hnone : (todo.take limit).getLast? with
      | some last => exact ⟨last, rfl⟩
      | none =>
        have hlength := congrArg length (getLast?_eq_none_iff.mp hnone)
        have htodo := hleft.length_eq
        simp only [length_take, length_nil] at hlength
        omega
    simp [hr, hm, hk, hmore, hlast, cursorAfter, afterKey, getLast?_append]
  · simp [hr, hm, hmore]

/-! ### Queries are exact and resumable -/

/-- How many matches the pages before the `i`-th hold. -/
def pageStart (limits : Nat → Nat) : Nat → Nat
  | 0 => 0
  | i + 1 => pageStart limits i + limits i

theorem followPages_eq (hbudget : budget.validate = .ok ()) (direction : SecondaryIndexDirection)
    {clocks : Nat → Nat → Nat} {limits : Nat → Nat} (hlimits : ∀ i, 0 < limits i) :
    let answer := direction.order (rows.filter fun row => bounds.matches row.term)
    let visited := fun i => (direction.order
      (entriesIn physical.start false physical.stop es)).take (pageStart limits i)
    (∀ i, AllowsPage budget (clocks i) (limits i) (answer.drop (pageStart limits i))) →
    ∀ pages i, answer.length - pageStart limits i < pages →
    Enough fun fuel => followPages (fun i cursor => ix.page fuel bounds direction cursor (limits i)
      budget (clocks i)) pages i (ix.cursorAfter bounds direction (visited i)) =
        .ok (answer.drop (pageStart limits i)) := by
  intro answer visited hallows pages
  set entries := direction.order (entriesIn physical.start false physical.stop es) with hentries
  have hstored : entries.Forall₂ ix.Stores answer :=
    stores_order (stores_filter hrows hbounds) direction
  induction pages with
  | zero => intro i hpages; omega
  | succ pages ih =>
    intro i hpages
    have hpage := page_eq hholds hrows hbounds hbudget
      (take_append_drop (pageStart limits i) entries).symm
      (forall₂_drop (pageStart limits i) hstored) (hlimits i) (hallows i)
    rw [length_drop] at hpage
    by_cases hmore : limits i < answer.length - pageStart limits i
    · have hnext := ih (i + 1) (by have := hlimits i; simp only [pageStart]; omega)
      refine (hpage.and hnext).mono fun fuel ⟨hpage, hnext⟩ => ?_
      rw [if_pos hmore, ← take_add] at hpage
      obtain ⟨cursor, hcursor⟩ : ∃ cursor,
          ix.cursorAfter bounds direction (visited (i + 1)) = some cursor := by
        refine exists_cursorAfter (ne_nil_of_length_pos ?_)
        have hlength : entries.length = answer.length := hstored.length_eq
        have hlimit := hlimits i
        simp only [visited, ← hentries, length_take, pageStart]
        omega
      rw [hcursor] at hnext
      have hpage : ix.page fuel bounds direction (ix.cursorAfter bounds direction (visited i))
          (limits i) budget (clocks i) =
            .ok ⟨(answer.drop (pageStart limits i)).take (limits i), some cursor⟩ := by
        rw [← hcursor]
        exact hpage
      simp only [followPages, hpage, ok_bind, hnext]
      rw [pageStart, ← drop_drop, take_append_drop]
    · refine hpage.mono fun fuel hpage => ?_
      have hall : (answer.drop (pageStart limits i)).take (limits i) =
          answer.drop (pageStart limits i) :=
        take_of_length_le (by rw [length_drop]; omega)
      rw [if_neg hmore, hall] at hpage
      have hpage : ix.page fuel bounds direction (ix.cursorAfter bounds direction (visited i))
          (limits i) budget (clocks i) = .ok ⟨answer.drop (pageStart limits i), none⟩ := hpage
      simp only [followPages, hpage, ok_bind]

/-- All matches as one page, where they fit one. -/
theorem collect_eq
    (hallows : AllowsPage {} clock 4096 (rows.filter fun row => bounds.matches row.term))
    (hfits : (rows.filter fun row => bounds.matches row.term).length ≤ 4096) :
    Enough fun fuel => ix.collect fuel bounds clock =
      .ok (rows.filter fun row => bounds.matches row.term) := by
  have hbudget : ({} : QueryBudget).validate = .ok () := rfl
  have hsplit : SecondaryIndexDirection.forward.order
      (entriesIn physical.start false physical.stop es) =
        [] ++ entriesIn physical.start false physical.stop es := rfl
  have hpage := page_eq hholds hrows hbounds hbudget hsplit (stores_filter hrows hbounds)
    (by decide) hallows
  refine hpage.mono fun fuel hpage => ?_
  rw [if_neg (Nat.not_lt.mpr hfits), take_of_length_le hfits] at hpage
  simp only [collect]
  rw [show ix.page fuel bounds .forward none ({} : QueryBudget).maxReturnedEntries {} clock = _
    from hpage]
  rfl

end Stored

/-- Terms with zero bytes, with `FF` and without bytes. -/
def sampleRows : List SecondaryIndexMatch :=
  [⟨[], [0], none⟩, ⟨[0], [], none⟩, ⟨[0], [0], none⟩, ⟨[0, 255], [1], none⟩, ⟨[255], [], none⟩]

/-- The leaf of the default format over `es`. -/
def Node.ofEntries (es : List Entry) : Node :=
  { keys := es.map Prod.fst, vals := es.map Prod.snd }

def sampleEntries : List Entry :=
  sampleRows.map fun row => (encodeSegment row.term ++ encodeSegment row.primaryKey, [])

def sampleIndex : SecondaryIndexSnapshot :=
  let cid : Cid := .filled 0
  { prolly := { digests := ⟨fun _ => cid, fun _ _ => 0⟩, format := {},
                store := fun _ => some (Node.ofEntries sampleEntries) }
    versionId := fun _ => cid
    snapshotId := ⟨cid, cid, cid⟩
    descriptor :=
      { sourceMapId := [109], name := [110], generation := 1, extractorId := "x",
        projection := .keysOnly, limits := ⟨1, 1, 1, 1, 1⟩, physicalLayout := 1,
        fingerprint := cid }
    selected := ⟨[110], cid, ⟨some cid, {}⟩, 5⟩
    maxProjectionBytes := 0 }

end SecondaryIndexSnapshot

end Prolly

import Mathlib.Data.List.Sort
import Prolly.Indexed.Retention

/-!
# Prolly.Indexed.Lifecycle

The commits of an indexed collection (`secondary_index/coordinator.rs`, `async_coordinator.rs`):
each loads the state, prepares the one to publish and publishes it under the policy. The trees
that a commit builds are its arguments here; a call that ends with an error or finds nothing to
do publishes nothing.

A descriptor is active or retired. `ensure_index` and `replace_index` mark a descriptor active
without taking a mark as retired away, so a definition that is activated again has both marks
(`reactivated_both`). Apart from that every commit keeps the descriptors in order
(`commit_inOrder`), and so does every run of commits (`inOrder_iff`).
-/

namespace Prolly

open List

/-- `ok_or_else`. -/
def okOr {α : Type} (value : Option α) (error : IndexError) : IndexResult α :=
  match value with
  | some value => .ok value
  | none => .error error

@[simp] theorem okOr_eq_ok {α : Type} {value : Option α} {error : IndexError} {a : α} :
    okOr value error = .ok a ↔ value = some a := by
  cases value <;> simp [okOr]

/-- The name and the fingerprint of a descriptor. -/
def IndexDescriptor.key (descriptor : IndexDescriptor) : DescriptorKey :=
  toLex (descriptor.name, descriptor.fingerprint)

namespace IndexedCollectionState

/-! ### Commits -/

/-- A call, with the trees it builds. -/
inductive Commit where
  | ensureIndex (descriptor : IndexDescriptor) (tree : Tree) (entries : Nat)
  | replaceIndex (descriptor : IndexDescriptor) (tree : Tree) (entries : Nat)
  | deactivateIndex (name : Bytes)
  | repairIndex (name : Bytes) (tree : Tree) (entries : Nat)
  | apply (source : SourceSnapshotRef) (updated : IndexSnapshotRef → Tree × Nat)
  | keepLast (count : Nat)
  | restoreSnapshot (target : Cid)
  | rebuildFromSource (source : SourceSnapshotRef) (registry : List (IndexDescriptor × Tree × Nat))

/-- Put a snapshot at the head. -/
def advance (codec : StateCodec) (state : IndexedCollectionState)
    (snapshot : IndexedSnapshotRecord) : IndexResult IndexedCollectionState := do
  let id ← snapshot.id codec
  .ok { state with snapshots := state.snapshots.insert id snapshot, head := id }

/-- `sort_by` on the names. -/
def sortByName (indexes : List IndexSnapshotRef) : List IndexSnapshotRef :=
  indexes.insertionSort fun a b => a.name ≤ b.name

/-- Change the first index with a name. -/
def updateIndex (name : Bytes) (change : IndexSnapshotRef → IndexSnapshotRef) :
    List IndexSnapshotRef → Option (List IndexSnapshotRef)
  | [] => none
  | index :: indexes =>
    if index.name = name then some (change index :: indexes)
    else (updateIndex name change indexes).map (index :: ·)

def activeOf (indexes : List IndexSnapshotRef) : SortedMap Bytes Cid :=
  SortedMap.ofList (indexes.map fun index => (index.name, index.descriptorFingerprint))

variable (codec : StateCodec) (state : IndexedCollectionState)

/-- The state that a call prepares; nothing when there is nothing to publish. -/
def candidate : Commit → IndexResult (Option IndexedCollectionState)
  | .ensureIndex descriptor tree entries => do
    let head ← state.headSnapshot
    match state.active.get? descriptor.name with
    | some active =>
      ensure (active = descriptor.fingerprint)
        (.indexOperationUnsupported "ensure_index cannot replace an active descriptor")
      ensure (head.indexes.any (·.name = descriptor.name))
        (.invalidVersionedMap "active index is absent from head snapshot")
      .ok none
    | none =>
      ensure (state.active.size < state.policy.maxActiveIndexes)
        (.indexResourceLimitExceeded "active_indexes" state.policy.maxActiveIndexes
          (saturatingAdd state.active.size 1))
      let next ← advance codec
        { state with
          descriptors := state.descriptors.insert descriptor.key descriptor
          active := state.active.insert descriptor.name descriptor.fingerprint }
        { head with
          parent := some state.head
          indexes := sortByName
            (head.indexes ++ [⟨descriptor.name, descriptor.fingerprint, tree, entries⟩]) }
      .ok (some next)
  | .replaceIndex descriptor tree entries => do
    let head ← state.headSnapshot
    let unavailable := .indexUnavailableAtVersion descriptor.name (codec.versionId head.source.tree)
    let fingerprint ← okOr (state.active.get? descriptor.name) unavailable
    let current ← okOr (state.descriptors.get? (toLex (descriptor.name, fingerprint)))
      (.invalidVersionedMap "active descriptor is missing")
    ensure (current.generation < descriptor.generation)
      (.invalidIndexDefinition "replacement generation must be strictly greater")
    let indexes ← okOr (updateIndex descriptor.name (fun index =>
      { index with
        tree, entryCount := entries, descriptorFingerprint := descriptor.fingerprint })
      head.indexes) unavailable
    let next ← advance codec
      { state with
        retired := state.retired.insert (toLex (descriptor.name, current.fingerprint)) ()
        descriptors := state.descriptors.insert descriptor.key descriptor
        active := state.active.insert descriptor.name descriptor.fingerprint }
      { head with parent := some state.head, indexes }
    .ok (some next)
  | .deactivateIndex name =>
    match state.active.get? name with
    | none => .ok none
    | some fingerprint => do
      let head ← state.headSnapshot
      let next ← advance codec
        { state with
          active := state.active.erase name
          retired := state.retired.insert (toLex (name, fingerprint)) () }
        { head with
          parent := some state.head, indexes := head.indexes.filter (·.name ≠ name) }
      .ok (some next)
  | .repairIndex name tree entries => do
    -- the snapshot to repair must be the head
    let head ← state.headSnapshot
    let unavailable := .indexUnavailableAtVersion name (codec.versionId head.source.tree)
    let selected ← okOr (head.indexes.find? (·.name = name)) unavailable
    let descriptor ← okOr (state.descriptors.get? selected.descriptorKey)
      (.invalidVersionedMap "repair descriptor is missing")
    if tree = selected.tree then .ok none
    else
      let indexes ← okOr (updateIndex name (fun index =>
        { index with
          tree, entryCount := entries, descriptorFingerprint := descriptor.fingerprint })
        head.indexes) unavailable
      let next ← advance codec state { head with parent := some state.head, indexes }
      .ok (some next)
  | .apply source updated => do
    let head ← state.headSnapshot
    if source.tree = head.source.tree then .ok none
    else
      let next ← advance codec state
        { sourceMapId := state.sourceMapId, parent := some state.head, source,
          indexes := head.indexes.map fun selected =>
            { selected with tree := (updated selected).1, entryCount := (updated selected).2 } }
      .ok (some next)
  | .keepLast count => .ok (some (state.retain (state.lastSnapshots count) false))
  | .restoreSnapshot target => do
    let snapshot ← okOr (state.snapshots.get? target)
      (.invalidVersionedMap "indexed snapshot is not retained")
    if state.head = target then .ok none
    else
      let active := activeOf snapshot.indexes
      let retired := state.active.entries.foldl (fun retired e =>
        if active.get? e.1 = some e.2 then retired else retired.insert (toLex e) ()) state.retired
      .ok (some { state with
        active
        retired := active.entries.foldl (fun retired e => retired.erase (toLex e)) retired
        head := target })
  | .rebuildFromSource source registry => do
    ensure (registry.length ≤ state.policy.maxActiveIndexes)
      (.indexResourceLimitExceeded "active_indexes" state.policy.maxActiveIndexes registry.length)
    let indexes := registry.map fun built =>
      ⟨built.1.name, built.1.fingerprint, built.2.1, built.2.2⟩
    let retired := state.active.entries.foldl (fun retired e => retired.insert (toLex e) ())
      state.retired
    let next ← advance codec
      { state with
        active := activeOf indexes
        retired := registry.foldl (fun retired built => retired.erase built.1.key) retired
        descriptors := registry.foldl
          (fun descriptors built => descriptors.insert built.1.key built.1) state.descriptors }
      { sourceMapId := state.sourceMapId, parent := some state.head, source,
        indexes := sortByName indexes }
    if next.head = state.head && next.active = state.active then .ok none else .ok (some next)

/-- A commit: `load_state`, the call and `publish`. -/
def commit (op : Commit) : IndexResult (Option IndexedCollectionState) := do
  state.validateClosure codec
  match ← state.candidate codec op with
  | none => .ok none
  | some candidate =>
    let published ← candidate.enforcePolicyLimits codec
    .ok (some published)

/-! ### Descriptors in order -/

def IsActive (key : DescriptorKey) : Prop :=
  state.active.get? (ofLex key).1 = some (ofLex key).2

instance (key : DescriptorKey) : Decidable (state.IsActive key) :=
  inferInstanceAs (Decidable (_ = _))

/-- No descriptor is active and retired. -/
def OneMark : Prop :=
  ∀ key, state.IsActive key → state.retired.contains key = false

def ActiveAtHead : Prop :=
  ∃ head, state.snapshots.get? state.head = some head ∧
    ∀ key, state.IsActive key ↔ key ∈ head.indexes.map (·.descriptorKey)

/-- The descriptors and their marks agree with the snapshots. -/
structure InOrder : Prop where
  oneMark : state.OneMark
  activeAtHead : state.ActiveAtHead
  present : ∀ id snapshot, state.snapshots.get? id = some snapshot →
    ∀ index ∈ snapshot.indexes, state.descriptors.contains index.descriptorKey = true

/-- The call makes a descriptor active that is marked as retired, or that it retires itself. -/
def Commit.Reactivates : Commit → Prop
  | .ensureIndex descriptor _ _ => state.retired.contains descriptor.key = true
  | .replaceIndex descriptor _ _ =>
    state.IsActive descriptor.key ∨ state.retired.contains descriptor.key = true
  | _ => False

variable {codec state} {id fingerprint : Cid} {snapshot : IndexedSnapshotRecord}
  {next : IndexedCollectionState} {name : Bytes} {indexes : List IndexSnapshotRef}

theorem present_of_closed (h : Closed codec state)
    (hsnapshot : state.snapshots.get? id = some snapshot) {index : IndexSnapshotRef}
    (hindex : index ∈ snapshot.indexes) :
    state.descriptors.contains index.descriptorKey = true := by
  obtain ⟨descriptor, hdescriptor, -⟩ := h.descriptor hsnapshot hindex
  rw [SortedMap.contains, hdescriptor]
  rfl

/-- Publishing leaves the marks of the active descriptors and the head as they are. -/
theorem inOrder_published {candidate published : IndexedCollectionState}
    (h : candidate.enforcePolicyLimits codec = .ok published) :
    published.InOrder ↔ candidate.OneMark ∧ candidate.ActiveAtHead := by
  have hretains := enforcePolicyLimits_retains h
  have hclosed := validateClosure_iff.mp hretains.closed
  have hactive : ∀ key, published.IsActive key ↔ candidate.IsActive key := by
    intro key
    obtain ⟨-, ⟨-, rfl⟩ | ⟨-, rfl⟩⟩ := enforcePolicyLimits_cases h <;> rfl
  have hretired : ∀ key, candidate.IsActive key →
      published.retired.contains key = candidate.retired.contains key := by
    intro key hkey
    obtain ⟨-, ⟨-, rfl⟩ | ⟨-, rfl⟩⟩ := enforcePolicyLimits_cases h
    · rfl
    · -- the mark of an active descriptor counts as used
      refine congrArg Option.isSome (Option.ext fun u => ?_)
      refine (SortedMap.get?_filter _).trans (and_iff_left ?_)
      exact (congrArg (_ || ·) (decide_eq_true hkey)).trans (Bool.or_true _)
  obtain ⟨head, hcandidate, hpublished, -⟩ := hretains.required candidate.head (.inl rfl)
  constructor
  · intro hin
    refine ⟨fun key hkey => hretired key hkey ▸ hin.oneMark key ((hactive key).mpr hkey), ?_⟩
    obtain ⟨head', hhead', hkeys⟩ := hin.activeAtHead
    rw [hretains.head, hpublished, Option.some.injEq] at hhead'
    exact ⟨head, hcandidate, fun key => by rw [← hactive, hkeys, hhead']⟩
  · rintro ⟨hone, head', hhead', hkeys⟩
    rw [hcandidate, Option.some.injEq] at hhead'
    refine ⟨fun key hkey => ?_, ⟨head, hretains.head ▸ hpublished, fun key => ?_⟩, fun id snapshot
      hget index hindex => present_of_closed hclosed hget hindex⟩
    · rw [hactive] at hkey
      rw [hretired key hkey]
      exact hone key hkey
    · rw [hactive, hkeys, hhead']

/-! ### What the calls do -/

theorem advance_eq_ok {candidate : IndexedCollectionState}
    (h : candidate.advance codec snapshot = .ok next) :
    next.active = candidate.active ∧ next.retired = candidate.retired ∧
      next.snapshots.get? next.head = some snapshot ∧ snapshot.validate = .ok () := by
  obtain ⟨id, hid, h⟩ := of_bind h
  obtain rfl := Except.ok.inj h
  obtain ⟨u, hvalid, -⟩ := of_bind hid
  exact ⟨rfl, rfl, by rw [SortedMap.get?_insert, if_pos rfl], hvalid⟩

theorem names_of_validate {record : IndexedSnapshotRecord} (h : record.validate = .ok ()) :
    (record.indexes.map (·.name)).Nodup := by
  obtain ⟨_, -, h⟩ := of_bind h
  have hsorted : ∀ indexes previous, validateIndexNames previous indexes = .ok () →
      (∀ name, previous = some name → ∀ index ∈ indexes, name < index.name) ∧
        (indexes.map (·.name)).Pairwise (· < ·) := by
    intro indexes
    induction indexes with
    | nil => simp
    | cons index indexes ih =>
      intro previous h
      obtain ⟨_, -, h⟩ := of_bind h
      obtain ⟨_, hnext, h⟩ := of_bind h
      obtain ⟨habove, hrest⟩ := ih _ h
      refine ⟨fun name hname other hother => ?_, pairwise_cons.mpr ⟨?_, hrest⟩⟩
      · have hlt : name < index.name := by
          simpa [hname] using hnext
        rcases mem_cons.mp hother with rfl | hother
        · exact hlt
        · exact hlt.trans (habove _ rfl other hother)
      · simpa using habove _ rfl
  exact (hsorted record.indexes none h).2.imp fun h => h.ne

theorem Closed.names (h : Closed codec state) (hget : state.snapshots.get? id = some snapshot) :
    (snapshot.indexes.map (·.name)).Nodup := by
  obtain ⟨_, hvalid, -⟩ := of_bind (h.snapshots id snapshot hget)
  exact names_of_validate hvalid

/-- The descriptors of a snapshot whose one index was changed. -/
theorem mem_updateIndex {change : IndexSnapshotRef → IndexSnapshotRef}
    (hchange : ∀ index, index.name = name →
      (change index).descriptorKey = toLex (name, fingerprint)) {changed : List IndexSnapshotRef}
    (hnames : (indexes.map (·.name)).Nodup) (h : updateIndex name change indexes = some changed)
    (key : DescriptorKey) :
    key ∈ changed.map (·.descriptorKey) ↔ key = toLex (name, fingerprint) ∨
      (ofLex key).1 ≠ name ∧ key ∈ indexes.map (·.descriptorKey) := by
  induction indexes generalizing changed with
  | nil => cases h
  | cons index indexes ih =>
    rw [map_cons, nodup_cons] at hnames
    rw [updateIndex] at h
    split at h
    · next hname =>
        obtain rfl := Option.some.inj h
        have hother : ∀ other ∈ indexes, other.name ≠ name := by
          intro other hmem heq
          exact hnames.1 (hname.trans heq.symm ▸ mem_map_of_mem hmem)
        simp only [map_cons, mem_cons, hchange index hname]
        refine or_congr_right ⟨fun hmem => ?_, ?_⟩
        · obtain ⟨other, hin, rfl⟩ := mem_map.mp hmem
          exact ⟨hother other hin, .inr hmem⟩
        · rintro ⟨hne, rfl | hmem⟩
          · exact absurd hname hne
          · exact hmem
    · next hname =>
        obtain ⟨rest, hrest, rfl⟩ := Option.map_eq_some_iff.mp h
        rw [map_cons, mem_cons, ih hnames.2 hrest, map_cons, mem_cons]
        have hindex : key = index.descriptorKey → (ofLex key).1 ≠ name := by
          rintro rfl
          exact hname
        tauto

theorem isActive_insert (h : next.active = state.active.insert name fingerprint)
    (key : DescriptorKey) :
    next.IsActive key ↔ key = toLex (name, fingerprint) ∨
      (ofLex key).1 ≠ name ∧ state.IsActive key := by
  rw [IsActive, h, SortedMap.get?_insert, IsActive]
  by_cases hname : name = (ofLex key).1
  · subst hname
    simp only [if_true, Option.some.injEq, ne_eq, not_true_eq_false, false_and, or_false]
    exact ⟨fun h => h ▸ rfl, fun h => (congrArg (fun k => (ofLex k).2) h).symm⟩
  · rw [if_neg hname]
    have hkey : key ≠ toLex (name, fingerprint) :=
      fun h => hname (congrArg (fun k => (ofLex k).1) h).symm
    simp [hkey, Ne.symm hname]

theorem isActive_activeOf (hnames : (indexes.map (·.name)).Nodup)
    (h : next.active = activeOf indexes) (key : DescriptorKey) :
    next.IsActive key ↔ key ∈ indexes.map (·.descriptorKey) := by
  rw [IsActive, h, activeOf, SortedMap.get?_ofList]
  · simp only [mem_map]
    exact exists_congr fun index => and_congr_right fun _ =>
      ⟨fun h => congrArg toLex h, fun h => congrArg ofLex h⟩
  · intro name fingerprint fingerprint' hmem hmem'
    obtain ⟨index, hindex, heq⟩ := mem_map.mp hmem
    obtain ⟨index', hindex', heq'⟩ := mem_map.mp hmem'
    obtain rfl : index = index' := inj_on_of_nodup_map hnames hindex hindex'
      ((congrArg Prod.fst heq).trans (congrArg Prod.fst heq').symm)
    exact (congrArg Prod.snd heq).symm.trans (congrArg Prod.snd heq')

theorem contains_eraseAll {α : Type} (key : α → DescriptorKey) (es : List α)
    (retired : SortedMap DescriptorKey Unit) {e : α} (he : e ∈ es) :
    (es.foldl (fun retired e => retired.erase (key e)) retired).contains (key e) = false := by
  have hnone : ∀ (es : List α) (m : SortedMap DescriptorKey Unit) k, m.get? k = none →
      (es.foldl (fun retired e => retired.erase (key e)) m).get? k = none := by
    intro es
    induction es with
    | nil => exact fun _ _ h => h
    | cons e es ih =>
      intro m k hk
      refine ih _ k ?_
      rw [SortedMap.get?_erase]
      split
      · rfl
      · exact hk
  induction es generalizing retired with
  | nil => cases he
  | cons first es ih =>
    rcases mem_cons.mp he with rfl | he
    · rw [foldl_cons, SortedMap.contains, hnone]
      · rfl
      · rw [SortedMap.get?_erase, if_pos rfl]
    · exact ih _ he

/-- Activating a descriptor leaves one mark on each if the new one is not retired. -/
theorem oneMark_activate {descriptor : IndexDescriptor} (hone : state.OneMark)
    (hactive : next.active = state.active.insert descriptor.name descriptor.fingerprint)
    (hretired : ∀ key, (ofLex key).1 ≠ descriptor.name →
      next.retired.contains key = state.retired.contains key) :
    next.OneMark ↔ ¬ next.retired.contains descriptor.key = true := by
  rw [Bool.not_eq_true]
  refine ⟨fun h => h _ ((isActive_insert hactive _).mpr (.inl rfl)), fun h key hkey => ?_⟩
  rcases (isActive_insert hactive key).mp hkey with rfl | ⟨hne, hkey⟩
  · exact h
  · rw [hretired key hne]
    exact hone key hkey

section Calls

variable {next : IndexedCollectionState} (hclosed : Closed codec state) (hin : state.InOrder)
  {descriptor : IndexDescriptor} {tree : Tree} {entries : Nat} {name : Bytes}
  {source : SourceSnapshotRef}

include hin in
theorem ensureIndex_inOrder
    (h : state.candidate codec (.ensureIndex descriptor tree entries) = .ok (some next)) :
    (next.OneMark ↔ ¬ Commit.Reactivates state (.ensureIndex descriptor tree entries)) ∧
      next.ActiveAtHead := by
  obtain ⟨head, hhead, h⟩ := of_bind h
  split at h
  · obtain ⟨_, -, h⟩ := of_bind h
    obtain ⟨_, -, h⟩ := of_bind h
    cases h
  next hnone =>
  obtain ⟨_, -, h⟩ := of_bind h
  obtain ⟨_, hadvance, h⟩ := of_bind h
  cases h
  obtain ⟨hactive, hretired, hget, -⟩ := advance_eq_ok hadvance
  refine ⟨?_, _, hget, fun key => ?_⟩
  · rw [oneMark_activate hin.oneMark hactive fun key _ => by rw [hretired], hretired]
    rfl
  · obtain ⟨head', hhead', hkeys⟩ := hin.activeAtHead
    rw [headSnapshot_eq_ok, hhead', Option.some.injEq] at hhead
    have hsort := (perm_insertionSort (fun a b : IndexSnapshotRef => a.name ≤ b.name)
      (head.indexes ++ [⟨descriptor.name, descriptor.fingerprint, tree, entries⟩])).map
        (·.descriptorKey)
    -- no index of the head has the name
    have hnew : state.IsActive key → (ofLex key).1 ≠ descriptor.name := by
      intro hkey heq
      rw [IsActive, heq, hnone] at hkey
      cases hkey
    refine (isActive_insert hactive key).trans (Iff.trans ?_ hsort.mem_iff.symm)
    rw [map_append, mem_append, ← hhead, ← hkeys, map_singleton, mem_singleton]
    tauto

include hclosed hin in
theorem replaceIndex_inOrder
    (h : state.candidate codec (.replaceIndex descriptor tree entries) = .ok (some next)) :
    (next.OneMark ↔ ¬ Commit.Reactivates state (.replaceIndex descriptor tree entries)) ∧
      next.ActiveAtHead := by
  simp only [candidate, bind_eq_ok, okOr_eq_ok, ensure_eq_ok, headSnapshot_eq_ok] at h
  obtain ⟨head, hhead, fingerprint, hcurrent, current, hdescriptor, -, -, indexes, hindexes, _,
    hadvance, h⟩ := h
  cases h
  obtain ⟨hactive, hretired, hget, -⟩ := advance_eq_ok hadvance
  obtain ⟨head', hhead', hkeys⟩ := hin.activeAtHead
  obtain rfl : head' = head := Option.some.inj (hhead'.symm.trans hhead)
  -- the descriptor that is retired is the active one
  obtain rfl : current.fingerprint = fingerprint := by
    obtain ⟨index, hindex, hkey⟩ := mem_map.mp ((hkeys (toLex (descriptor.name, fingerprint))).mp
      hcurrent)
    obtain ⟨found, hfound, heq⟩ := hclosed.descriptor hhead hindex
    rw [hkey, hdescriptor, Option.some.injEq] at hfound
    rw [hfound, heq]
    exact congrArg (fun key => (ofLex key).2) hkey
  refine ⟨?_, _, hget, fun key => ?_⟩
  · have hother : ∀ key, (ofLex key).1 ≠ descriptor.name →
        next.retired.contains key = state.retired.contains key := by
      intro key hne
      have hkey : toLex (descriptor.name, current.fingerprint) ≠ key := fun h => hne (h ▸ rfl)
      rw [hretired, Bool.eq_iff_iff, contains_insert]
      exact or_iff_right hkey
    rw [oneMark_activate hin.oneMark hactive hother, hretired, contains_insert]
    refine not_congr (or_congr_left ?_)
    refine Iff.trans ?_ (Eq.congr_left hcurrent : _ ↔ some _ = some descriptor.fingerprint).symm
    rw [Option.some.injEq]
    exact ⟨fun h => congrArg (fun key => (ofLex key).2) h, fun h => h ▸ rfl⟩
  · rw [isActive_insert hactive, mem_updateIndex (fun index hname => by
      rw [IndexSnapshotRef.descriptorKey, hname]) (hclosed.names hhead) hindexes, hkeys]

include hin in
theorem deactivateIndex_inOrder
    (h : state.candidate codec (.deactivateIndex name) = .ok (some next)) :
    next.OneMark ∧ next.ActiveAtHead := by
  rw [candidate] at h
  split at h
  · cases h
  next fingerprint hcurrent =>
  obtain ⟨head, hhead, h⟩ := of_bind h
  obtain ⟨_, hadvance, h⟩ := of_bind h
  cases h
  obtain ⟨hactive, hretired, hget, -⟩ := advance_eq_ok hadvance
  have hkey : ∀ key, next.IsActive key ↔ (ofLex key).1 ≠ name ∧ state.IsActive key := by
    intro key
    rw [IsActive, hactive, SortedMap.get?_erase, IsActive]
    by_cases hname : name = (ofLex key).1
    · simp [hname]
    · simp [hname, Ne.symm hname]
  refine ⟨fun key hactive => ?_, _, hget, fun key => ?_⟩
  · obtain ⟨hne, hactive⟩ := (hkey key).mp hactive
    have hkey : toLex (name, fingerprint) ≠ key := fun h => hne (h ▸ rfl)
    rw [← Bool.not_eq_true, hretired, contains_insert, or_iff_right hkey, Bool.not_eq_true]
    exact hin.oneMark key hactive
  · obtain ⟨head', hhead', hkeys⟩ := hin.activeAtHead
    rw [headSnapshot_eq_ok, hhead', Option.some.injEq] at hhead
    rw [hkey, hkeys, hhead, mem_map, mem_map]
    constructor
    · rintro ⟨hne, index, hindex, rfl⟩
      exact ⟨index, mem_filter.mpr ⟨hindex, decide_eq_true hne⟩, rfl⟩
    · rintro ⟨index, hindex, rfl⟩
      obtain ⟨hindex, hne⟩ := mem_filter.mp hindex
      exact ⟨of_decide_eq_true hne, index, hindex, rfl⟩

/-- A call that changes the trees only. -/
theorem inOrder_of_keys (hin : state.InOrder) {candidate : IndexedCollectionState}
    {snapshot : IndexedSnapshotRecord} (hadvance : candidate.advance codec snapshot = .ok next)
    (hactive : candidate.active = state.active) (hretired : candidate.retired = state.retired)
    (hkeys : ∀ head, state.snapshots.get? state.head = some head → ∀ key,
      key ∈ snapshot.indexes.map (·.descriptorKey) ↔ key ∈ head.indexes.map (·.descriptorKey)) :
    next.OneMark ∧ next.ActiveAtHead := by
  obtain ⟨hactive', hretired', hget, -⟩ := advance_eq_ok hadvance
  obtain ⟨head, hhead, hhead'⟩ := hin.activeAtHead
  refine ⟨fun key hkey => ?_, _, hget, fun key => ?_⟩
  · rw [IsActive, hactive', hactive] at hkey
    rw [hretired', hretired]
    exact hin.oneMark key hkey
  · rw [hkeys head hhead, ← hhead', IsActive, hactive', hactive, IsActive]

include hclosed hin in
theorem repairIndex_inOrder
    (h : state.candidate codec (.repairIndex name tree entries) = .ok (some next)) :
    next.OneMark ∧ next.ActiveAtHead := by
  simp only [candidate, bind_eq_ok, okOr_eq_ok, headSnapshot_eq_ok] at h
  obtain ⟨head, hhead, selected, hselected, descriptor, hdescriptor, h⟩ := h
  split at h
  · cases h
  simp only [bind_eq_ok, okOr_eq_ok] at h
  obtain ⟨indexes, hindexes, _, hadvance, h⟩ := h
  cases h
  have hmem := mem_of_find?_eq_some hselected
  have hname : selected.name = name := by simpa using List.find?_some hselected
  obtain ⟨found, hfound, hfingerprint⟩ := hclosed.descriptor hhead hmem
  rw [hdescriptor, Option.some.injEq] at hfound
  refine inOrder_of_keys hin hadvance rfl rfl fun head' hhead' key => ?_
  obtain rfl : head = head' := Option.some.inj (hhead.symm.trans hhead')
  have hkey : selected.descriptorKey = toLex (name, descriptor.fingerprint) := by
    rw [IndexSnapshotRef.descriptorKey, hname, hfound, hfingerprint]
  rw [mem_updateIndex (fun index hname => by rw [IndexSnapshotRef.descriptorKey, hname])
    (hclosed.names hhead) hindexes, ← hkey]
  constructor
  · rintro (rfl | ⟨-, hold⟩)
    · exact mem_map_of_mem hmem
    · exact hold
  · intro hold
    by_cases hne : (ofLex key).1 = name
    · obtain ⟨index, hindex, rfl⟩ := mem_map.mp hold
      obtain rfl : index = selected := inj_on_of_nodup_map (hclosed.names hhead) hindex hmem
        (Eq.trans hne hname.symm)
      exact .inl rfl
    · exact .inr ⟨hne, hold⟩

include hin in
theorem apply_inOrder {updated : IndexSnapshotRef → Tree × Nat}
    (h : state.candidate codec (.apply source updated) = .ok (some next)) :
    next.OneMark ∧ next.ActiveAtHead := by
  obtain ⟨head, hhead, h⟩ := of_bind h
  split at h
  · cases h
  obtain ⟨_, hadvance, h⟩ := of_bind h
  cases h
  refine inOrder_of_keys hin hadvance rfl rfl fun head' hhead' key => ?_
  rw [headSnapshot_eq_ok, hhead', Option.some.injEq] at hhead
  rw [hhead, map_map]
  rfl

include hclosed hin in
theorem keepLast_inOrder (count : Nat) :
    (state.retain (state.lastSnapshots count) false).OneMark ∧
      (state.retain (state.lastSnapshots count) false).ActiveAtHead := by
  obtain ⟨head, hhead, hkeys⟩ := hin.activeAtHead
  obtain ⟨head', hhead', -⟩ := (hclosed.keepLast count).head
  obtain rfl : head' = head :=
    Option.some.inj ((get?_retain_snapshots.mp hhead').1.symm.trans hhead)
  refine ⟨fun key hkey => ?_, head', hhead', hkeys⟩
  have hone := hin.oneMark key hkey
  rw [← Bool.not_eq_true] at hone ⊢
  intro hretired
  obtain ⟨u, hget⟩ := Option.isSome_iff_exists.mp hretired
  exact hone (Option.isSome_iff_exists.mpr ⟨u, ((SortedMap.get?_filter _).mp hget).1⟩)

include hclosed in
theorem restoreSnapshot_inOrder {target : Cid}
    (h : state.candidate codec (.restoreSnapshot target) = .ok (some next)) :
    next.OneMark ∧ next.ActiveAtHead := by
  simp only [candidate, bind_eq_ok, okOr_eq_ok] at h
  obtain ⟨snapshot, hsnapshot, h⟩ := h
  split at h
  · cases h
  cases h
  refine ⟨fun key hkey => ?_, snapshot, hsnapshot, isActive_activeOf (hclosed.names hsnapshot) rfl⟩
  exact contains_eraseAll toLex _ _ ((SortedMap.mem_entries _).mpr hkey)

theorem rebuildFromSource_inOrder {registry : List (IndexDescriptor × Tree × Nat)}
    (h : state.candidate codec (.rebuildFromSource source registry) = .ok (some next)) :
    next.OneMark ∧ next.ActiveAtHead := by
  obtain ⟨_, -, h⟩ := of_bind h
  obtain ⟨next', hadvance, h⟩ := of_bind h
  split at h
  · cases h
  cases h
  obtain ⟨hactive, hretired, hget, hvalid⟩ := advance_eq_ok hadvance
  have hsort := fun indexes => perm_insertionSort
    (fun a b : IndexSnapshotRef => a.name ≤ b.name) indexes
  have hkeys :=
    isActive_activeOf (((hsort _).map _).nodup_iff.mp (names_of_validate hvalid)) hactive
  refine ⟨fun key hkey => ?_, _, hget, fun key => (hkeys key).trans ((hsort _).map _).mem_iff.symm⟩
  obtain ⟨index, hindex, rfl⟩ := mem_map.mp ((hkeys key).mp hkey)
  obtain ⟨built, hbuilt, rfl⟩ := mem_map.mp hindex
  rw [hretired]
  exact contains_eraseAll (fun built : IndexDescriptor × Tree × Nat => built.1.key) _ _ hbuilt

end Calls

/-! ### Runs -/

/-- A commit keeps the descriptors in order exactly when it activates no retired one. -/
theorem commit_inOrder {op : Commit} (hin : state.InOrder)
    (h : state.commit codec op = .ok (some next)) : next.InOrder ↔ ¬ op.Reactivates state := by
  obtain ⟨_, hvalid, h⟩ := of_bind h
  obtain ⟨prepared, hprepared, h⟩ := of_bind h
  have hclosed := validateClosure_iff.mp hvalid
  cases prepared with
  | none => cases h
  | some prepared =>
    obtain ⟨published, hpublished, h⟩ := of_bind h
    cases h
    rw [inOrder_published hpublished]
    have hnever : prepared.OneMark ∧ prepared.ActiveAtHead →
        (prepared.OneMark ∧ prepared.ActiveAtHead ↔ ¬ False) := fun h => iff_of_true h not_false
    cases op with
    | ensureIndex descriptor tree entries =>
      obtain ⟨hone, hhead⟩ := ensureIndex_inOrder hin hprepared
      exact (and_iff_left hhead).trans hone
    | replaceIndex descriptor tree entries =>
      obtain ⟨hone, hhead⟩ := replaceIndex_inOrder hclosed hin hprepared
      exact (and_iff_left hhead).trans hone
    | deactivateIndex name => exact hnever (deactivateIndex_inOrder hin hprepared)
    | repairIndex name tree entries => exact hnever (repairIndex_inOrder hclosed hin hprepared)
    | apply source updated => exact hnever (apply_inOrder hin hprepared)
    | keepLast count =>
      cases hprepared
      exact hnever (keepLast_inOrder hclosed hin count)
    | restoreSnapshot target => exact hnever (restoreSnapshot_inOrder hclosed hprepared)
    | rebuildFromSource source registry => exact hnever (rebuildFromSource_inOrder hprepared)

/-- The commits made since a state, each with the state it was made in, and the state reached. -/
inductive History (codec : StateCodec) (start : IndexedCollectionState) :
    List (IndexedCollectionState × Commit) → IndexedCollectionState → Prop
  | start : History codec start [] start
  | commit {steps state op next} : History codec start steps state →
      state.commit codec op = .ok (some next) → History codec start ((state, op) :: steps) next

theorem new_inOrder {sourceMapId : Bytes} {policy : CollectionIndexPolicy}
    {head : IndexedSnapshotRecord} {start : IndexedCollectionState}
    (h : IndexedCollectionState.new codec sourceMapId policy head = .ok start) :
    start.InOrder := by
  simp only [IndexedCollectionState.new, bind_eq_ok] at h
  obtain ⟨_, -, _, -, headId, -, _, hvalid, h⟩ := h
  cases h
  have hclosed := validateClosure_iff.mp hvalid
  obtain ⟨found, hfound, -⟩ := hclosed.head
  -- there are no descriptors, so that the head has no indexes
  have hempty : found.indexes = [] := by
    refine eq_nil_iff_forall_not_mem.mpr fun index hindex => ?_
    obtain ⟨_, hdescriptor, -⟩ := hclosed.descriptor hfound hindex
    cases hdescriptor
  refine ⟨fun key hkey => ?_, ⟨found, hfound, fun key => ?_⟩, fun id snapshot hget index hindex =>
    present_of_closed hclosed hget hindex⟩
  · cases hkey
  · rw [hempty]
    exact iff_of_false nofun nofun

/-- The descriptors are in order in every state of a run from a new collection exactly when no
commit of the run activates a retired descriptor. -/
theorem inOrder_iff {sourceMapId : Bytes} {policy : CollectionIndexPolicy}
    {head : IndexedSnapshotRecord} {start state : IndexedCollectionState}
    {steps : List (IndexedCollectionState × Commit)}
    (hnew : IndexedCollectionState.new codec sourceMapId policy head = .ok start)
    (h : History codec start steps state) :
    ((∀ step ∈ steps, step.1.InOrder) ∧ state.InOrder) ↔
      ∀ step ∈ steps, ¬ step.2.Reactivates step.1 := by
  induction h with
  | start => simp [new_inOrder hnew]
  | commit _ hcommit ih =>
    rw [forall_mem_cons, forall_mem_cons, ← ih]
    constructor
    · rintro ⟨⟨hstate, hsteps⟩, hnext⟩
      exact ⟨(commit_inOrder hstate hcommit).mp hnext, hsteps, hstate⟩
    · rintro ⟨hop, hsteps, hstate⟩
      exact ⟨⟨hstate, hsteps⟩, (commit_inOrder hstate hcommit).mpr hop⟩

/-! ### An index that is activated again -/

def exampleDescriptor : IndexDescriptor where
  sourceMapId := [1]
  name := [5]
  generation := 1
  extractorId := "x"
  projection := .keysOnly
  limits := ⟨1, 1, 1, 1, 1⟩
  physicalLayout := 1
  fingerprint := .filled 5

def after (state : IndexedCollectionState) (op : Commit) : IndexedCollectionState :=
  match state.commit exampleCodec op with
  | .ok (some next) => next
  | _ => state

def exampleStart : IndexedCollectionState where
  sourceMapId := [1]
  policy := {}
  head := .filled 0
  snapshots := (∅ : SortedMap _ _).insert (.filled 0) (exampleRecord none 0)
  descriptors := ∅
  active := ∅
  retired := ∅
  pins := ∅

def activateExample : Commit := .ensureIndex exampleDescriptor ⟨none, {}⟩ 0

def activated : IndexedCollectionState := exampleStart.after activateExample

def deactivated : IndexedCollectionState := activated.after (.deactivateIndex [5])

theorem exampleStart_eq :
    IndexedCollectionState.new exampleCodec [1] {} (exampleRecord none 0) = .ok exampleStart := by
  decide

theorem deactivated_history : History exampleCodec exampleStart
    [(activated, .deactivateIndex [5]), (exampleStart, activateExample)] deactivated := by
  refine .commit (.commit .start ?_) ?_
  · decide
  · decide

theorem inOrder_iff_deactivated : deactivated.InOrder := by
  refine ((inOrder_iff exampleStart_eq deactivated_history).mpr fun step hstep => ?_).2
  rcases mem_cons.mp hstep with rfl | hstep
  · exact id
  · obtain rfl := mem_singleton.mp hstep
    show ¬ exampleStart.retired.contains exampleDescriptor.key = true
    decide

/-- `ensure_index`, `deactivate_index` and `ensure_index` leave the descriptor active and
retired. -/
theorem reactivated_both :
    (∃ steps, History exampleCodec exampleStart steps (deactivated.after activateExample)) ∧
      (deactivated.after activateExample).IsActive exampleDescriptor.key ∧
      (deactivated.after activateExample).retired.contains exampleDescriptor.key = true := by
  have hcommit : deactivated.commit exampleCodec activateExample =
      .ok (some (deactivated.after activateExample)) := by decide
  exact ⟨⟨_, .commit deactivated_history hcommit⟩, by decide, by decide⟩

end IndexedCollectionState

end Prolly

import Mathlib.Logic.Relation
import Prolly.Indexed.State
import Prolly.Lib.WhileLoop

/-!
# Prolly.Indexed.Retention

What a collection retains: `enforce_policy_limits`, which every publication runs, and
`keep_last` (`secondary_index/coordinator.rs`).

What `validate_closure` accepts is `Closed`, and dropping snapshots keeps it as long as the head
and the pinned ones stay (`Closed.retain`). The walk of `enforce_policy_limits` keeps whole
chains (`keepAncestors_path`) and ends, because the id of a snapshot is a digest of a record
that holds the id of its parent (`ParentsEarlier`, `walk_ends`).
-/

namespace Prolly

open List Option

namespace IndexedCollectionState

variable {codec : StateCodec} {state : IndexedCollectionState} {id : Cid}
  {snapshot : IndexedSnapshotRecord} {index : IndexSnapshotRef}

/-! ### The closure -/

/-- What `validate_closure` accepts. -/
structure Closed (codec : StateCodec) (state : IndexedCollectionState) : Prop where
  sourceMapId : state.sourceMapId ≠ []
  policy : state.policy.validate = .ok ()
  activeSize : state.active.size ≤ state.policy.maxActiveIndexes
  snapshotsSize : state.snapshots.size ≤ state.policy.maxRetainedSnapshots
  descriptorsSize : state.descriptors.size ≤ state.policy.maxDescriptors
  pinsSize : state.pins.size ≤ state.policy.maxDurablePins
  head : ∃ head, state.snapshots.get? state.head = some head ∧
    head.sourceMapId = state.sourceMapId ∧ ∀ name fingerprint,
      state.active.get? name = some fingerprint →
        state.validateActive head name fingerprint = .ok ()
  snapshots : ∀ id snapshot, state.snapshots.get? id = some snapshot →
    state.validateSnapshot codec id snapshot = .ok ()
  pins : ∀ pin id, state.pins.get? pin = some id → state.snapshots.contains id = true

theorem headSnapshot_eq_ok {head : IndexedSnapshotRecord} :
    state.headSnapshot = .ok head ↔ state.snapshots.get? state.head = some head := by
  unfold headSnapshot
  cases state.snapshots.get? state.head <;> simp

theorem validateClosure_iff : state.validateClosure codec = .ok () ↔ Closed codec state := by
  have hentries : ∀ {K V : Type} [LinearOrder K] {m : SortedMap K V} {f : K × V → IndexResult Unit},
      m.entries.forM f = .ok () ↔ ∀ k v, m.get? k = some v → f (k, v) = .ok () := by
    intro K V _ m f
    rw [Result.forM_eq_ok, Prod.forall]
    simp only [SortedMap.mem_entries]
  simp only [validateClosure, withinLimit, bind_eq_ok, ensure_eq_ok, decide_eq_true_eq,
    headSnapshot_eq_ok, hentries]
  constructor
  · rintro ⟨_, hsource, _, hpolicy, _, ha, _, hs, _, hd, _, hp, head, hhead, _, hid, _, hall, _,
      hactive, hpins⟩
    exact ⟨hsource, hpolicy, ha, hs, hd, hp, ⟨head, hhead, hid, hactive⟩, hall, hpins⟩
  · rintro ⟨hsource, hpolicy, ha, hs, hd, hp, ⟨head, hhead, hid, hactive⟩, hall, hpins⟩
    exact ⟨(), hsource, (), hpolicy, (), ha, (), hs, (), hd, (), hp, head, hhead, (), hid, (), hall,
      (), hactive, hpins⟩

/-- A retained snapshot has its descriptors, each under its own fingerprint. -/
theorem Closed.descriptor (h : Closed codec state)
    (hsnapshot : state.snapshots.get? id = some snapshot) (hindex : index ∈ snapshot.indexes) :
    ∃ descriptor, state.descriptors.get? index.descriptorKey = some descriptor ∧
      descriptor.fingerprint = index.descriptorFingerprint := by
  have hvalid := h.snapshots id snapshot hsnapshot
  simp only [validateSnapshot, bind_eq_ok, Result.forM_eq_ok] at hvalid
  obtain ⟨_, -, _, -, _, -, _, -, hselected⟩ := hvalid
  have hone := hselected index hindex
  unfold validateSelected at hone
  split at hone
  · cases hone
  · next descriptor hdescriptor =>
      obtain ⟨_, -, howner⟩ := of_bind hone
      simp only [ensure_eq_ok, Bool.and_eq_true, decide_eq_true_eq] at howner
      exact ⟨descriptor, hdescriptor, howner.2⟩

/-! ### Dropping snapshots -/

/-- A snapshot that a pin names. -/
def Pinned (state : IndexedCollectionState) (id : Cid) : Prop :=
  ∃ pin, state.pins.get? pin = some id

/-- The state with the snapshots of `keep` and the descriptors they use. -/
abbrev retain (state : IndexedCollectionState) (keep : SortedMap Cid Unit) (alsoActive : Bool) :
    IndexedCollectionState :=
  (state.retainSnapshots keep).retainDescriptors alsoActive

variable {keep : SortedMap Cid Unit} {alsoActive : Bool} {K : Type} {rank : Cid → Nat}
  {kept : IndexedCollectionState}

theorem contains_insert [LinearOrder K] (keep : SortedMap K Unit) (k x : K) :
    (keep.insert k ()).contains x = true ↔ k = x ∨ keep.contains x = true := by
  unfold SortedMap.contains
  rw [SortedMap.get?_insert]
  by_cases h : k = x <;> simp [h]

theorem contains_insertAll (ids : List Cid) (keep : SortedMap Cid Unit) (x : Cid) :
    (ids.foldl (fun keep id => keep.insert id ()) keep).contains x = true ↔
      x ∈ ids ∨ keep.contains x = true := by
  induction ids generalizing keep with
  | nil => simp
  | cons id ids ih =>
    rw [foldl_cons, ih, contains_insert, mem_cons, eq_comm (a := id)]
    tauto

theorem contains_pins (state : IndexedCollectionState) (keep : SortedMap Cid Unit) (x : Cid) :
    (state.pins.values.foldl (fun keep id => keep.insert id ()) keep).contains x = true ↔
      state.Pinned x ∨ keep.contains x = true := by
  rw [contains_insertAll, SortedMap.mem_values]
  rfl

theorem get?_retain_snapshots :
    (state.retain keep alsoActive).snapshots.get? id = some snapshot ↔
      state.snapshots.get? id = some snapshot ∧ keep.contains id = true :=
  SortedMap.get?_filter _

theorem get?_retain_descriptors {key : DescriptorKey} {descriptor : IndexDescriptor}
    (h : (state.retain keep alsoActive).descriptors.get? key = some descriptor) :
    state.descriptors.get? key = some descriptor :=
  ((SortedMap.get?_filter _).mp h).1

/-- A descriptor that a retained snapshot uses stays. -/
theorem descriptor_retained
    (hsnapshot : (state.retain keep alsoActive).snapshots.get? id = some snapshot)
    (hindex : index ∈ snapshot.indexes) :
    (state.retain keep alsoActive).descriptors.get? index.descriptorKey =
      state.descriptors.get? index.descriptorKey := by
  have hreferenced : (state.retainSnapshots keep).referenced index.descriptorKey = true := by
    refine any_eq_true.mpr ⟨snapshot, (SortedMap.mem_values _).mpr ⟨id, hsnapshot⟩, ?_⟩
    exact any_eq_true.mpr ⟨index, hindex, decide_eq_true rfl⟩
  refine Option.ext fun descriptor => ?_
  refine (SortedMap.get?_filter _).trans (and_iff_left ?_)
  exact (congrArg (· || _) hreferenced).trans (Bool.true_or _)

theorem size_filter_le {V : Type} [LinearOrder K] (m : SortedMap K V) (p : K → V → Bool) :
    (m.filter p).size ≤ m.size := length_filter_le _ _

/-- The closure survives as long as the head and the pinned snapshots do. -/
theorem Closed.retain (h : Closed codec state) (hhead : keep.contains state.head = true)
    (hpins : ∀ id, state.Pinned id → keep.contains id = true) :
    Closed codec (state.retain keep alsoActive) := by
  obtain ⟨head, hget, hsource, hactive⟩ := h.head
  have hhead' : (state.retain keep alsoActive).snapshots.get? state.head = some head :=
    get?_retain_snapshots.mpr ⟨hget, hhead⟩
  refine ⟨h.sourceMapId, h.policy, h.activeSize, (size_filter_le _ _).trans h.snapshotsSize,
    (size_filter_le _ _).trans h.descriptorsSize, h.pinsSize, ⟨head, hhead', hsource, ?_⟩, ?_, ?_⟩
  · -- an active index is one of the head's, so that its descriptor is used
    intro name fingerprint hname
    have hvalid := hactive name fingerprint hname
    simp only [validateActive, bind_eq_ok, ensure_eq_ok, decide_eq_true_eq,
      map_eq_some_iff] at hvalid ⊢
    obtain ⟨u, hdescriptor, index, hfind, hfingerprint⟩ := hvalid
    have hkey : index.descriptorKey = toLex (name, fingerprint) := by
      have hindexName : index.name = name := by simpa using List.find?_some hfind
      rw [IndexSnapshotRef.descriptorKey, hindexName, hfingerprint]
    refine ⟨u, ?_, index, hfind, hfingerprint⟩
    unfold SortedMap.contains at hdescriptor ⊢
    rwa [← hkey, descriptor_retained hhead' (mem_of_find?_eq_some hfind), hkey]
  · intro id snapshot hsnapshot
    have hvalid := h.snapshots id snapshot (get?_retain_snapshots.mp hsnapshot).1
    simp only [validateSnapshot, bind_eq_ok, Result.forM_eq_ok] at hvalid ⊢
    obtain ⟨u, hrecord, v, howner, found, hfound, w, hid, hselected⟩ := hvalid
    refine ⟨u, hrecord, v, howner, found, hfound, w, hid, fun index hindex => ?_⟩
    have hone := hselected index hindex
    unfold validateSelected at hone ⊢
    rwa [descriptor_retained hsnapshot hindex]
  · intro pin id hpin
    obtain ⟨snapshot, hsnapshot⟩ := isSome_iff_exists.mp (h.pins pin id hpin)
    exact isSome_iff_exists.mpr
      ⟨snapshot, get?_retain_snapshots.mpr ⟨hsnapshot, hpins id ⟨pin, hpin⟩⟩⟩

/-! ### The walk -/

def ParentIn (snapshots : SortedMap Cid IndexedSnapshotRecord) (child parent : Cid) : Prop :=
  ∃ record, snapshots.get? child = some record ∧ record.parent = some parent

variable (state)

/-- Ids are digests without collisions. A record holds the id of its parent, so that this id
was made before that of the record. -/
def ParentsEarlier : Prop :=
  ∃ rank : Cid → Nat, ∀ child parent, ParentIn state.snapshots child parent →
    rank parent < rank child

/-- A turn of the loop of `enforce_policy_limits`; nothing when the loop ends. -/
def ancestorsStep (loop : Option Cid × SortedMap Cid Unit) :
    Option (IndexResult (Option Cid × SortedMap Cid Unit)) :=
  if loop.2.size < state.policy.maxRetainedSnapshots then
    match loop.1.bind state.snapshots.get? with
    | none => none
    | some snapshot => some (.ok (snapshot.parent, match snapshot.parent with
        | some parent => loop.2.insert parent ()
        | none => loop.2))
  else none

/-- The loop ends after a turn for each snapshot at the latest, with what the bounded walk
returns. -/
def WalkEnds : Prop :=
  ∃ final, (∀ fuel, state.snapshots.size ≤ fuel →
    WhileLoop.run state.ancestorsStep fuel
      (some state.head, state.pinned.insert state.head ()) = some (.ok final)) ∧
    state.keepAncestors state.walkBound (some state.head) (state.pinned.insert state.head ()) =
      final.2

/-- What a turn does: it leaves a retained snapshot and keeps its parent, if it has one. -/
theorem ancestorsStep_cases (cursor : Option Cid)
    (keep : SortedMap Cid Unit) :
    (state.ancestorsStep (cursor, keep) = none ∧
      ∀ fuel, state.keepAncestors fuel cursor keep = keep) ∨
    ∃ id snapshot next, cursor = some id ∧ state.snapshots.get? id = some snapshot ∧
      state.ancestorsStep (cursor, keep) = some (.ok (snapshot.parent, next)) ∧
      (∀ fuel, state.keepAncestors (fuel + 1) cursor keep =
        state.keepAncestors fuel snapshot.parent next) ∧
      (snapshot.parent = none ∧ next = keep ∨
        ∃ parent, snapshot.parent = some parent ∧ next = keep.insert parent ()) := by
  by_cases hroom : keep.size < state.policy.maxRetainedSnapshots
  · cases hget : cursor.bind state.snapshots.get? with
    | none =>
      refine .inl ⟨by simp [ancestorsStep, hget], fun fuel => ?_⟩
      cases fuel <;> simp [keepAncestors, hget]
    | some snapshot =>
      obtain ⟨id, rfl, hid⟩ := bind_eq_some_iff.mp hget
      cases hparent : snapshot.parent with
      | none =>
        exact .inr ⟨id, snapshot, keep, rfl, hid, by simp [ancestorsStep, hroom, hid, hparent],
          fun fuel => by simp [keepAncestors, hroom, hid, hparent], .inl ⟨hparent, rfl⟩⟩
      | some parent =>
        exact .inr ⟨id, snapshot, _, rfl, hid, by simp [ancestorsStep, hroom, hid, hparent],
          fun fuel => by simp [keepAncestors, hroom, hid, hparent], .inr ⟨parent, hparent, rfl⟩⟩
  · refine .inl ⟨by simp [ancestorsStep, hroom], fun fuel => ?_⟩
    cases fuel <;> simp [keepAncestors, hroom]

/-- The snapshots a walk from `cursor` may still pass. -/
def ahead (rank : Cid → Nat) (cursor : Option Cid) : Nat :=
  (state.snapshots.entries.filter fun e => cursor.any fun id => rank e.1 ≤ rank id).length

variable {state}

theorem ahead_parent_lt
    (hrank : ∀ child parent, ParentIn state.snapshots child parent → rank parent < rank child)
    (hget : state.snapshots.get? id = some snapshot) :
    state.ahead rank snapshot.parent < state.ahead rank (some id) := by
  have hearlier : ∀ parent, snapshot.parent = some parent → rank parent < rank id :=
    fun parent hparent => hrank id parent ⟨snapshot, hget, hparent⟩
  have hsub : (state.snapshots.entries.filter fun e =>
        snapshot.parent.any fun parent => rank e.1 ≤ rank parent).Sublist
      (state.snapshots.entries.filter fun e => (some id).any fun id => rank e.1 ≤ rank id) := by
    refine monotone_filter_right _ fun e he => ?_
    obtain ⟨parent, hparent, hle⟩ := any_eq_true _ _ |>.mp he
    simpa using (of_decide_eq_true hle).trans (hearlier parent hparent).le
  refine lt_of_le_of_ne hsub.length_le fun heq => ?_
  -- the snapshot itself is passed now and never again
  have hmem : (id, snapshot) ∈ state.snapshots.entries.filter fun e =>
      snapshot.parent.any fun parent => rank e.1 ≤ rank parent := by
    rw [hsub.eq_of_length heq, mem_filter]
    exact ⟨(SortedMap.mem_entries _).mpr hget, by simp⟩
  obtain ⟨parent, hparent, hle⟩ := any_eq_true _ _ |>.mp (mem_filter.mp hmem).2
  exact absurd (hearlier parent hparent) (Nat.not_lt.mpr (of_decide_eq_true hle))

theorem run_ancestorsStep
    (hrank : ∀ child parent, ParentIn state.snapshots child parent → rank parent < rank child)
    (n : Nat) (cursor : Option Cid) (keep : SortedMap Cid Unit) (hn : state.ahead rank cursor ≤ n) :
    ∃ final, ∀ fuel, n ≤ fuel →
      WhileLoop.run state.ancestorsStep fuel (cursor, keep) = some (.ok final) ∧
        state.keepAncestors (fuel + 1) cursor keep = final.2 := by
  induction n generalizing cursor keep with
  | zero =>
    rcases state.ancestorsStep_cases cursor keep with ⟨hstep, hwalk⟩ |
      ⟨id, snapshot, _, rfl, hid, _⟩
    · exact ⟨(cursor, keep), fun fuel _ => ⟨by rw [WhileLoop.run, hstep], hwalk _⟩⟩
    · exact absurd (ahead_parent_lt hrank hid) (by omega)
  | succ n ih =>
    rcases state.ancestorsStep_cases cursor keep with
      ⟨hstep, hwalk⟩ | ⟨id, snapshot, next, rfl, hid, hstep, hwalk, -⟩
    · exact ⟨(cursor, keep), fun fuel _ => ⟨by rw [WhileLoop.run, hstep], hwalk _⟩⟩
    · have hless := ahead_parent_lt hrank hid
      obtain ⟨final, hfinal⟩ := ih snapshot.parent next (by omega)
      refine ⟨final, fun fuel hfuel => ?_⟩
      obtain _ | fuel := fuel
      · omega
      rw [WhileLoop.run, hstep, hwalk]
      exact hfinal fuel (by omega)

theorem walk_ends (h : state.ParentsEarlier) : state.WalkEnds := by
  obtain ⟨rank, hrank⟩ := h
  obtain ⟨final, hfinal⟩ := run_ancestorsStep hrank state.snapshots.size (some state.head)
    (state.pinned.insert state.head ()) (length_filter_le _ _)
  exact ⟨final, fun fuel hfuel => (hfinal fuel hfuel).1, (hfinal _ le_rfl).2⟩

/-- The parent links between the snapshots the walk keeps. -/
def KeptLink (state : IndexedCollectionState) (keep : SortedMap Cid Unit) (child parent : Cid) :
    Prop :=
  keep.contains child = true ∧ ParentIn state.snapshots child parent

/-- Whatever the walk keeps is pinned or linked to the head by what it keeps. -/
theorem keepAncestors_path (fuel : Nat) {cursor : Option Cid}
    (hkeep : ∀ id, keep.contains id = true →
      state.Pinned id ∨ Relation.ReflTransGen (state.KeptLink keep) state.head id)
    (hcursor : ∀ id, cursor = some id → keep.contains id = true ∧
      Relation.ReflTransGen (state.KeptLink keep) state.head id)
    (hid : (state.keepAncestors fuel cursor keep).contains id = true) :
    state.Pinned id ∨ Relation.ReflTransGen
      (state.KeptLink (state.keepAncestors fuel cursor keep)) state.head id := by
  induction fuel generalizing cursor keep with
  | zero => exact hkeep id hid
  | succ fuel ih =>
    rcases state.ancestorsStep_cases cursor keep with
      ⟨-, hwalk⟩ | ⟨current, snapshot, next, rfl, hcurrent, -, hwalk, hnext⟩
    · rw [hwalk] at hid ⊢
      exact hkeep id hid
    · obtain ⟨hmem, hpath⟩ := hcursor current rfl
      rw [hwalk] at hid ⊢
      rcases hnext with ⟨hparent, rfl⟩ | ⟨parent, hparent, rfl⟩
      · exact ih hkeep (by simp [hparent]) hid
      · -- the links stay when the parent is kept, too
        have hmono : ∀ x, Relation.ReflTransGen (state.KeptLink keep) state.head x →
            Relation.ReflTransGen (state.KeptLink (keep.insert parent ())) state.head x :=
          Relation.ReflTransGen.mono (p := state.KeptLink (keep.insert parent ()))
            (fun a b hab => ⟨(contains_insert ..).mpr (.inr hab.1), hab.2⟩) state.head
        have hlink := (hmono current hpath).tail
          ⟨(contains_insert ..).mpr (.inr hmem), snapshot, hcurrent, hparent⟩
        refine ih (fun x hx => ?_) (fun x hx => ?_) hid
        · rcases (contains_insert ..).mp hx with rfl | hx
          · exact .inr hlink
          · exact (hkeep x hx).imp_right (hmono x)
        · obtain rfl : parent = x := Option.some.inj (hparent.symm.trans hx)
          exact ⟨(contains_insert ..).mpr (.inl rfl), hlink⟩

/-! ### What is retained -/

/-- What `enforce_policy_limits` keeps of a state. -/
structure Retains (codec : StateCodec) (state kept : IndexedCollectionState) : Prop where
  head : kept.head = state.head
  pins : kept.pins = state.pins
  /-- The head and the pinned snapshots stay with their descriptors. -/
  required : ∀ id, id = state.head ∨ state.Pinned id → ∃ record,
    state.snapshots.get? id = some record ∧ kept.snapshots.get? id = some record ∧
      ∀ index ∈ record.indexes, ∃ descriptor,
        state.descriptors.get? index.descriptorKey = some descriptor ∧
          kept.descriptors.get? index.descriptorKey = some descriptor
  size : kept.snapshots.size ≤ state.policy.maxRetainedSnapshots
  /-- Of the others, what a chain of kept snapshots links to the head. -/
  others : state.policy.maxRetainedSnapshots < state.snapshots.size → ∀ id record,
    kept.snapshots.get? id = some record → ¬ state.Pinned id →
      state.snapshots.get? id = some record ∧
        Relation.ReflTransGen (ParentIn kept.snapshots) kept.head id
  unchanged : state.snapshots.size ≤ state.policy.maxRetainedSnapshots → kept = state
  closed : kept.validateClosure codec = .ok ()

/-- What is required of a state that was closed after snapshots and descriptors were dropped. -/
theorem Closed.required (h : Closed codec kept) (hhead : kept.head = state.head)
    (hpins : kept.pins = state.pins)
    (hsnapshots : ∀ id record, kept.snapshots.get? id = some record →
      state.snapshots.get? id = some record)
    (hdescriptors : ∀ key descriptor, kept.descriptors.get? key = some descriptor →
      state.descriptors.get? key = some descriptor) (id : Cid)
    (hid : id = state.head ∨ state.Pinned id) :
    ∃ record, state.snapshots.get? id = some record ∧ kept.snapshots.get? id = some record ∧
      ∀ index ∈ record.indexes, ∃ descriptor,
        state.descriptors.get? index.descriptorKey = some descriptor ∧
          kept.descriptors.get? index.descriptorKey = some descriptor := by
  obtain ⟨record, hrecord⟩ : ∃ record, kept.snapshots.get? id = some record := by
    rcases hid with rfl | ⟨pin, hpin⟩
    · obtain ⟨head, hget, -⟩ := h.head
      exact ⟨head, hhead ▸ hget⟩
    · exact isSome_iff_exists.mp (h.pins pin id (hpins ▸ hpin))
  refine ⟨record, hsnapshots id record hrecord, hrecord, fun index hindex => ?_⟩
  obtain ⟨descriptor, hdescriptor, -⟩ := h.descriptor hrecord hindex
  exact ⟨descriptor, hdescriptors _ _ hdescriptor, hdescriptor⟩

/-- What is published: the state, or what the walk keeps of it. -/
theorem enforcePolicyLimits_cases (h : state.enforcePolicyLimits codec = .ok kept) :
    kept.validateClosure codec = .ok () ∧
      (state.snapshots.size ≤ state.policy.maxRetainedSnapshots ∧ kept = state ∨
        state.policy.maxRetainedSnapshots < state.snapshots.size ∧
          kept = state.retain (state.keepAncestors state.walkBound (some state.head)
            (state.pinned.insert state.head ())) true) := by
  obtain ⟨_, -, h⟩ := of_bind h
  split at h
  · next hfits =>
      obtain ⟨_, hvalid, h⟩ := of_bind h
      obtain rfl : state = kept := Except.ok.inj h
      exact ⟨hvalid, .inl ⟨hfits, rfl⟩⟩
  · next hover =>
      obtain ⟨_, -, h⟩ := of_bind h
      obtain ⟨_, hvalid, h⟩ := of_bind h
      obtain rfl := Except.ok.inj h
      exact ⟨hvalid, .inr ⟨Nat.not_le.mp hover, rfl⟩⟩

theorem enforcePolicyLimits_retains (h : state.enforcePolicyLimits codec = .ok kept) :
    Retains codec state kept := by
  obtain ⟨hvalid, ⟨hfits, rfl⟩ | ⟨hover, rfl⟩⟩ := enforcePolicyLimits_cases h
  · have hclosed := validateClosure_iff.mp hvalid
    exact ⟨rfl, rfl, hclosed.required rfl rfl (fun _ _ h => h) (fun _ _ h => h), hfits,
      fun hover => absurd hfits (Nat.not_le.mpr hover), fun _ => rfl, hvalid⟩
  · have hclosed := validateClosure_iff.mp hvalid
    refine ⟨rfl, rfl, hclosed.required rfl rfl (fun _ _ h => (get?_retain_snapshots.mp h).1)
      (fun _ _ h => get?_retain_descriptors h), hclosed.snapshotsSize, ?_,
      fun hfits => absurd hfits (Nat.not_le.mpr hover), hvalid⟩
    intro _ id record hget hpinned
    obtain ⟨hrecord, hkept⟩ := get?_retain_snapshots.mp hget
    have hstart : ∀ x, (state.pinned.insert state.head ()).contains x = true →
        state.Pinned x ∨ Relation.ReflTransGen
          (state.KeptLink (state.pinned.insert state.head ())) state.head x := by
      intro x hx
      rcases (contains_insert ..).mp hx with rfl | hx
      · exact .inr .refl
      · exact .inl (((contains_pins state ∅ x).mp hx).resolve_right (by simp [SortedMap.contains]))
    have hpath := keepAncestors_path state.walkBound hstart (fun x hx => ?_) hkept
    · refine ⟨hrecord, Relation.ReflTransGen.mono (r := state.KeptLink _) ?_ _ _
        (hpath.resolve_left hpinned)⟩
      intro child parent hlink
      obtain ⟨hchild, snapshot, hsnapshot, hparent⟩ := hlink
      exact ⟨snapshot, get?_retain_snapshots.mpr ⟨hsnapshot, hchild⟩, hparent⟩
    · cases hx
      exact ⟨(contains_insert ..).mpr (.inl rfl), .refl⟩

/-- A closed state is published as it is. -/
theorem enforcePolicyLimits_of_closed (h : Closed codec state) :
    state.enforcePolicyLimits codec = .ok state := by
  rw [enforcePolicyLimits, h.policy, ok_bind, if_pos h.snapshotsSize, validateClosure_iff.mpr h]
  rfl

/-! ### Keeping the last snapshots -/

/-- `IndexedRetentionResult`; its other fields are empty. -/
structure IndexedRetentionResult where
  retainedSourceVersions : List Cid
  removedSourceVersions : List Cid
  removedSnapshotRecords : Nat
  deriving DecidableEq

variable (codec state)

/-- The loop of `keep_last`. -/
def keepChain : Nat → Option Cid → SortedMap Cid Unit → SortedMap Cid Unit
  | 0, _, keep => keep
  | _ + 1, none, keep => keep
  | count + 1, some id, keep =>
    keepChain count ((state.snapshots.get? id).bind (·.parent)) (keep.insert id ())

/-- The snapshots `keep_last` keeps. -/
def lastSnapshots (count : Nat) : SortedMap Cid Unit :=
  state.pins.values.foldl (fun keep id => keep.insert id ())
    (state.keepChain (max count 1) (some state.head) ∅)

/-- `keep_last`: from the state that was loaded, whose closure was checked then, to the one that
is published. -/
def keepLast (count : Nat) :
    IndexResult (IndexedCollectionState × IndexedRetentionResult) := do
  state.validateClosure codec
  let keep := state.lastSnapshots count
  let removed := state.snapshots.filter fun id _ => !keep.contains id
  let candidate ← (state.retain keep false).enforcePolicyLimits codec
  .ok (candidate, {
    retainedSourceVersions := candidate.snapshots.values.map (codec.versionId ·.source.tree)
    removedSourceVersions := removed.values.map (codec.versionId ·.source.tree)
    removedSnapshotRecords := removed.size })

/-- The first `count` snapshots of the chain of parents from `cursor` on, as far as it is
retained. -/
def chain : Nat → Option Cid → List Cid
  | 0, _ => []
  | _ + 1, none => []
  | count + 1, some id =>
    match state.snapshots.get? id with
    | none => []
    | some snapshot => id :: chain count snapshot.parent

variable {codec state}

theorem contains_keepChain (count : Nat) (cursor : Option Cid)
    (hid : (state.snapshots.get? id).isSome) :
    (state.keepChain count cursor keep).contains id = true ↔
      id ∈ state.chain count cursor ∨ keep.contains id = true := by
  induction count generalizing cursor keep with
  | zero => simp [keepChain, chain]
  | succ count ih =>
    cases cursor with
    | none => simp [keepChain, chain]
    | some current =>
      rw [keepChain, ih, contains_insert, chain]
      cases hget : state.snapshots.get? current with
      | none =>
        have hne : current ≠ id := by
          rintro rfl
          rw [hget] at hid
          cases hid
        cases count <;> simp [chain, hne]
      | some snapshot =>
        rw [mem_cons, eq_comm (a := id), bind_some]
        tauto

theorem contains_lastSnapshots {count : Nat} {record : IndexedSnapshotRecord}
    (hget : state.snapshots.get? id = some record) :
    (state.lastSnapshots count).contains id = true ↔
      state.Pinned id ∨ id ∈ state.chain (max count 1) (some state.head) := by
  rw [lastSnapshots, contains_pins, contains_keepChain _ _ (by rw [hget]; rfl)]
  simp [SortedMap.contains]

theorem Closed.keepLast (h : Closed codec state) (count : Nat) :
    Closed codec (state.retain (state.lastSnapshots count) false) := by
  obtain ⟨head, hget, -⟩ := h.head
  refine h.retain ((contains_lastSnapshots hget).mpr (.inr ?_)) fun id hpinned =>
    (contains_pins ..).mpr (.inl hpinned)
  obtain ⟨n, hn⟩ : ∃ n, max count 1 = n + 1 := ⟨max count 1 - 1, by omega⟩
  rw [hn, chain, hget]
  exact mem_cons_self

theorem keepLast_spec (h : state.validateClosure codec = .ok ()) (count : Nat) :
    ∃ kept result, state.keepLast codec count = .ok (kept, result) ∧ ∀ id record,
      kept.snapshots.get? id = some record ↔ state.snapshots.get? id = some record ∧
        (state.Pinned id ∨ id ∈ state.chain (max count 1) (some state.head)) := by
  have hpublished := enforcePolicyLimits_of_closed ((validateClosure_iff.mp h).keepLast count)
  refine ⟨_, _, by simp only [keepLast, h, ok_bind, hpublished]; rfl, fun id record => ?_⟩
  exact get?_retain_snapshots.trans (and_congr_right fun hget => contains_lastSnapshots hget)

/-- The walk of `enforce_policy_limits` ends and what it publishes is what it must keep;
`keep_last` keeps the pinned snapshots and the first ones of the head's chain. -/
theorem retention_exact (h : state.ParentsEarlier) :
    state.WalkEnds ∧
      (∀ kept, state.enforcePolicyLimits codec = .ok kept → Retains codec state kept) ∧
      ∀ count, state.validateClosure codec = .ok () →
        ∃ kept result, state.keepLast codec count = .ok (kept, result) ∧ ∀ id record,
          kept.snapshots.get? id = some record ↔ state.snapshots.get? id = some record ∧
            (state.Pinned id ∨ id ∈ state.chain (max count 1) (some state.head)) :=
  ⟨walk_ends h, fun _ => enforcePolicyLimits_retains, fun count hvalid =>
    keepLast_spec hvalid count⟩

/-! ### A branch off the head's chain -/

/-- Codes of one byte: an id counts the parents and the entries of the source. -/
def exampleCodec : StateCodec where
  snapshot record := .ok [(record.parent.elim 0 fun parent => parent.bytes.headD 0 + 1) +
    UInt8.ofNat record.source.entryCount]
  fingerprint fields := .ok fields.name
  sha256 bytes := .filled (bytes.headD 0)
  versionId _ := .filled 0

def exampleRecord (parent : Option Cid) (entryCount : Nat) : IndexedSnapshotRecord :=
  ⟨[1], parent, ⟨⟨none, {}⟩, entryCount⟩, []⟩

/-- A head with its parent, and a snapshot that is neither pinned nor one of its ancestors. -/
def branched (limit : Nat) : IndexedCollectionState where
  sourceMapId := [1]
  policy := { maxRetainedSnapshots := limit }
  head := .filled 1
  snapshots := .ofList [(.filled 0, exampleRecord none 0),
    (.filled 1, exampleRecord (some (.filled 0)) 0), (.filled 7, exampleRecord none 7)]
  descriptors := ∅
  active := ∅
  retired := ∅
  pins := ∅

/-- The head has the one parent there is. -/
theorem branched_parent {limit : Nat} {child parent : Cid}
    (h : ParentIn (branched limit).snapshots child parent) :
    child = .filled 1 ∧ parent = .filled 0 := by
  obtain ⟨record, hget, hparent⟩ := h
  have hmem : (child, record) ∈ [(Cid.filled 0, exampleRecord none 0),
      (.filled 1, exampleRecord (some (.filled 0)) 0), (.filled 7, exampleRecord none 7)] :=
    (branched limit).snapshots.mem_entries.mpr hget
  simp only [List.mem_cons, List.not_mem_nil, or_false, Prod.mk.injEq] at hmem
  rcases hmem with ⟨rfl, rfl⟩ | ⟨rfl, rfl⟩ | ⟨rfl, rfl⟩
  · cases hparent
  · cases hparent
    exact ⟨rfl, rfl⟩
  · cases hparent

theorem branched_parentsEarlier (limit : Nat) : (branched limit).ParentsEarlier := by
  refine ⟨fun id => (id.bytes.headD 0).toNat, fun child parent hlink => ?_⟩
  obtain ⟨rfl, rfl⟩ := branched_parent hlink
  decide

theorem retention_exact_branched :
    (branched 2).ParentsEarlier ∧ ∃ kept, (branched 2).enforcePolicyLimits exampleCodec = .ok kept ∧
      kept.snapshots.size = 2 ∧ Retains exampleCodec (branched 2) kept := by
  refine ⟨branched_parentsEarlier 2, (branched 2).retain (.ofList [(.filled 0, ()),
    (.filled 1, ())]) true, by decide +kernel, by decide +kernel, ?_⟩
  exact (retention_exact (branched_parentsEarlier 2)).2.1 _ (by decide +kernel)

/-- Within the limit the other branch stays. -/
theorem enforcePolicyLimits_keeps_branch :
    (branched 3).ParentsEarlier ∧
      (branched 3).enforcePolicyLimits exampleCodec = .ok (branched 3) ∧
      (branched 3).snapshots.contains (.filled 7) = true ∧ Cid.filled 7 ≠ (branched 3).head ∧
      ¬ (branched 3).Pinned (.filled 7) ∧
      ¬ Relation.ReflTransGen (ParentIn (branched 3).snapshots) (branched 3).head (.filled 7) := by
  refine ⟨branched_parentsEarlier 3, by decide +kernel, by decide +kernel, by decide, ?_,
    fun hpath => ?_⟩
  · rintro ⟨pin, hpin⟩
    cases hpin
  · -- no snapshot has the other branch for its parent
    rcases hpath.cases_tail with heq | ⟨child, -, hlink⟩
    · exact absurd heq (by decide)
    · exact absurd (branched_parent hlink).2 (by decide)

end IndexedCollectionState

end Prolly

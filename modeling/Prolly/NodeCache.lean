import Prolly.Boundary
import Prolly.Lib.KeyMap

/-!
# Prolly.NodeCache

The cache of decoded nodes (`mod.rs`, `NodeCache`): a map from content identifiers with a limit on
the number of nodes and on their bytes, and entries that are pinned. Recency is a log of accesses:
an access appends the node with a new generation, and a record is stale once its node has a newer
one. Eviction takes records from the front of the log, drops stale ones, moves those of pinned
entries to the back, and stops when a whole turn has found only pinned entries.

That keeps the limits as long as every entry has a live record in the log (`Tracked.evictToLimit`).
Every operation keeps the records, except `clear_unpinned`: it empties the log and keeps the pinned
entries. Runs without that are within the limits after every insertion and unpinning, unless all
entries are pinned (`cacheLimits_hold`); a run with it is not (`cacheLimits_fail`).
-/

namespace Prolly

open List Option

/-- The representations of a cached node: decoded, packed, or packed and decoded on demand. -/
inductive CachedNode (N R : Type) where
  | owned (node : N)
  | read (node : R)
  | both (node : N) (packed : R)
  deriving DecidableEq

namespace CachedNode

variable {N R : Type}

/-- `owned.get_or_init`: a packed node is decoded once. -/
def getOrInit (toOwned : R → N) : CachedNode N R → N × CachedNode N R
  | .owned node => (node, .owned node)
  | .read packed => (toOwned packed, .both (toOwned packed) packed)
  | .both node packed => (node, .both node packed)

/-- `read.get`. -/
def packed : CachedNode N R → Option R
  | .owned _ => none
  | .read packed => some packed
  | .both _ packed => some packed

end CachedNode

/-- `NodeCacheEntry`. -/
structure NodeCacheEntry (N R : Type) where
  node : CachedNode N R
  generation : UInt64
  bytes : Nat
  pinned : Bool
  deriving DecidableEq

/-- `NodeCache`, for decoded nodes `N` and packed nodes `R`. -/
structure NodeCache (N R : Type) where
  maxNodes : Option Nat
  maxBytes : Option Nat
  nodes : KeyMap Cid (NodeCacheEntry N R) := ∅
  accessLog : List (Cid × UInt64) := []
  nextGeneration : UInt64 := 0
  bytes : Nat := 0

namespace NodeCache

variable {N R : Type} {c a b c' : NodeCache N R} (fuel : Nat) {scanned' : Nat} {cid : Cid}
  {entry e : NodeCacheEntry N R}

/-- `NodeCache::new`. -/
def new (maxNodes maxBytes : Option Nat) : NodeCache N R := { maxNodes, maxBytes }

/-- `NodeCache::is_unbounded`. -/
def isUnbounded (c : NodeCache N R) : Bool := c.maxNodes.isNone && c.maxBytes.isNone

/-- `NodeCache::is_disabled`. -/
def isDisabled (c : NodeCache N R) : Bool := c.maxNodes == some 0 || c.maxBytes == some 0

/-- `NodeCache::len`. -/
def len (c : NodeCache N R) : Nat := c.nodes.entries.length

/-- `NodeCache::exceeds_limit`. -/
def exceedsLimit (c : NodeCache N R) : Bool :=
  c.maxNodes.any (fun maxNodes => decide (maxNodes < c.len)) ||
    c.maxBytes.any (fun maxBytes => decide (maxBytes < c.bytes))

/-- `NodeCache::clear`. -/
def clear (c : NodeCache N R) : Nat × NodeCache N R :=
  (c.len, { c with nodes := ∅, accessLog := [], bytes := 0 })

/-- `NodeCache::clear_unpinned`. -/
def clearUnpinned (c : NodeCache N R) : Nat × NodeCache N R :=
  let nodes := c.nodes.filterValues NodeCacheEntry.pinned
  (c.len - nodes.entries.length,
    { c with nodes, accessLog := [], bytes := nodes.total NodeCacheEntry.bytes })

/-- `NodeCache::remove_entry`. -/
def removeEntry (c : NodeCache N R) (cid : Cid) : Nat × NodeCache N R :=
  match c.nodes.lookup cid with
  | some entry => (1, { c with nodes := c.nodes.erase cid, bytes := c.bytes - entry.bytes })
  | none => (0, c)

/-- The record is that of the entry's last access. -/
def isLive (c : NodeCache N R) (record : Cid × UInt64) : Bool :=
  (c.nodes.lookup record.1).any fun entry => entry.generation == record.2

/-- `NodeCache::compact_access_log_if_needed`. -/
def compactAccessLogIfNeeded (c : NodeCache N R) : NodeCache N R :=
  if c.accessLog.length ≤ max (min (c.len * 4) u64Max) 64 then c
  else { c with accessLog := c.accessLog.filter c.isLive }

/-- The loop of `evict_to_limit`: `scanned` records of pinned entries were moved to the back since
the last eviction. -/
def evictLoop : Nat → NodeCache N R → Nat → Nat → Nat × NodeCache N R
  | 0, c, _, evicted => (evicted, c)
  | fuel + 1, c, scanned, evicted =>
    if c.exceedsLimit then
      match c.accessLog with
      | [] => (evicted, c)
      | record :: log =>
        match c.nodes.lookup record.1 with
        | none => evictLoop fuel { c with accessLog := log } scanned evicted
        | some entry =>
          if entry.generation ≠ record.2 then
            evictLoop fuel { c with accessLog := log } scanned evicted
          else if entry.pinned then
            let c := { c with accessLog := log ++ [record] }
            if c.accessLog.length ≤ scanned + 1 then (evicted, c)
            else evictLoop fuel c (scanned + 1) evicted
          else
            let (removed, c) := removeEntry { c with accessLog := log } record.1
            evictLoop fuel c 0 (evicted + removed)
    else (evicted, c)

/-- `NodeCache::evict_to_limit`. A record is moved at most once between two evictions, so the bound
on the turns is never reached (`evictLoop_done`). -/
def evictToLimit (c : NodeCache N R) : Nat × NodeCache N R :=
  evictLoop (c.accessLog.length * (c.accessLog.length + 1) + 1) c 0 0

/-- `get_mut`: a held entry is changed in place. -/
def setEntry (c : NodeCache N R) (cid : Cid) (entry : NodeCacheEntry N R) : NodeCache N R :=
  { c with nodes := c.nodes.insert cid entry }

/-- `access_log.push_back`. -/
def record (c : NodeCache N R) (cid : Cid) (generation : UInt64) : NodeCache N R :=
  { c with accessLog := c.accessLog ++ [(cid, generation)] }

/-- An access to a held entry: it gets the next generation, and the log a record of it. -/
def touch (c : NodeCache N R) (cid : Cid) (entry : NodeCacheEntry N R) : NodeCache N R :=
  let generation := c.nextGeneration + 1
  let c := { c.setEntry cid { entry with generation } with nextGeneration := generation }
  (c.record cid generation).compactAccessLogIfNeeded

/-- `NodeCache::get`. -/
def get (toOwned : R → N) (c : NodeCache N R) (cid : Cid) : Option N × NodeCache N R :=
  match c.nodes.lookup cid with
  | none => (none, c)
  | some entry =>
    let (node, cached) := entry.node.getOrInit toOwned
    let entry := { entry with node := cached }
    (some node, if c.isUnbounded then c.setEntry cid entry else c.touch cid entry)

/-- `NodeCache::get_read`. -/
def getRead (c : NodeCache N R) (cid : Cid) : Option R × NodeCache N R :=
  match c.nodes.lookup cid with
  | none => (none, c)
  | some entry =>
    match entry.node.packed with
    | none => (none, c)
    | some packed => (some packed, if c.isUnbounded then c else c.touch cid entry)

/-- An entry of the next generation is added, or replaces the one of its node. -/
def putEntry (c : NodeCache N R) (cid : Cid) (entry : NodeCacheEntry N R) : NodeCache N R :=
  let replaced := (c.nodes.lookup cid).elim 0 NodeCacheEntry.bytes
  { c with
    nodes := c.nodes.insert cid entry
    nextGeneration := entry.generation
    bytes := saturatingAdd (c.bytes - replaced) entry.bytes }

/-- `insert_owned_with_pin` and `insert_read_with_pin`: whether the entry is newly pinned, and how
many entries were evicted. -/
def insertWithPin (c : NodeCache N R) (cid : Cid) (node : CachedNode N R) (bytes : Nat)
    (pinned : Bool) : (Bool × Nat) × NodeCache N R :=
  if c.isDisabled then
    let (evicted, c) := c.clear
    ((false, evicted), c)
  else
    let wasPinned := (c.nodes.lookup cid).any NodeCacheEntry.pinned
    let entry := { node, generation := c.nextGeneration + 1, bytes, pinned := pinned || wasPinned }
    let newlyPinned := pinned && !wasPinned
    let c := c.putEntry cid entry
    if c.isUnbounded then ((newlyPinned, 0), c)
    else
      let (evicted, c) := evictToLimit (c.record cid entry.generation)
      ((newlyPinned, evicted), c.compactAccessLogIfNeeded)

/-- `NodeCache::insert`. -/
def insert (c : NodeCache N R) (cid : Cid) (node : N) (bytes : Nat) : Nat × NodeCache N R :=
  let ((_, evicted), c) := c.insertWithPin cid (.owned node) bytes false
  (evicted, c)

/-- `NodeCache::insert_pinned`. -/
def insertPinned (c : NodeCache N R) (cid : Cid) (node : N) (bytes : Nat) :
    (Bool × Nat) × NodeCache N R :=
  c.insertWithPin cid (.owned node) bytes true

/-- `insert_read_with_pin`: a packed node weighs the bytes that it retains. -/
def insertReadWithPin (retained : R → Nat) (c : NodeCache N R) (cid : Cid) (packed : R)
    (pinned : Bool) : (Bool × Nat) × NodeCache N R :=
  c.insertWithPin cid (.read packed) (retained packed) pinned

/-- `NodeCache::pin_existing`. -/
def pinExisting (c : NodeCache N R) (cid : Cid) : Bool × NodeCache N R :=
  match c.nodes.lookup cid with
  | none => (false, c)
  | some entry =>
    (!entry.pinned, c.setEntry cid { entry with pinned := true })

/-- `NodeCache::unpin_all`: how many entries were pinned, and how many were evicted. -/
def unpinAll (c : NodeCache N R) : (Nat × Nat) × NodeCache N R :=
  let unpinned := c.nodes.total fun entry => entry.pinned.toNat
  let (evicted, c) :=
    evictToLimit { c with nodes := c.nodes.mapValues fun entry => { entry with pinned := false } }
  ((unpinned, evicted), c.compactAccessLogIfNeeded)

/-! ### Eviction -/

def held (c : NodeCache N R) : Nat := c.nodes.total NodeCacheEntry.bytes

/-- The counter is the sum of the entries' sizes, every entry of a limited cache has a live record,
and a disabled cache is empty. -/
structure Tracked (c : NodeCache N R) : Prop where
  bytes : c.bytes = c.held
  logged : c.isUnbounded = false → ∀ cid entry, c.nodes.lookup cid = some entry →
    (cid, entry.generation) ∈ c.accessLog
  disabled : c.isDisabled = true → ∀ cid, c.nodes.lookup cid = none

/-- What an eviction may do: drop entries that are not pinned. -/
structure Evicts (c c' : NodeCache N R) : Prop where
  maxNodes : c'.maxNodes = c.maxNodes
  maxBytes : c'.maxBytes = c.maxBytes
  kept : ∀ cid entry, c'.nodes.lookup cid = some entry → c.nodes.lookup cid = some entry
  pinned : ∀ cid entry, c.nodes.lookup cid = some entry → entry.pinned = true →
    c'.nodes.lookup cid = some entry
  tracked : c.Tracked → c'.Tracked

theorem Evicts.refl (c : NodeCache N R) : c.Evicts c :=
  ⟨rfl, rfl, fun _ _ h => h, fun _ _ h _ => h, fun h => h⟩

theorem Evicts.trans (h : a.Evicts b) (h' : b.Evicts c) : a.Evicts c :=
  ⟨h'.maxNodes.trans h.maxNodes, h'.maxBytes.trans h.maxBytes,
    fun cid entry hc => h.kept cid entry (h'.kept cid entry hc),
    fun cid entry ha hp => h'.pinned cid entry (h.pinned cid entry ha hp) hp,
    fun ht => h'.tracked (h.tracked ht)⟩

/-- One turn of the loop, from `scanned` to `scanned'`. -/
inductive Turn (c : NodeCache N R) (scanned : Nat) : NodeCache N R → Nat → Prop
  | stale {record : Cid × UInt64} {log : List (Cid × UInt64)} (hlog : c.accessLog = record :: log)
      (hstale : ∀ entry, c.nodes.lookup record.1 = some entry → entry.generation ≠ record.2) :
      Turn c scanned { c with accessLog := log } scanned
  | pinned {record : Cid × UInt64} {log : List (Cid × UInt64)} {entry : NodeCacheEntry N R}
      (hlog : c.accessLog = record :: log) (hentry : c.nodes.lookup record.1 = some entry)
      (hlive : entry.generation = record.2) (hpinned : entry.pinned = true) :
      Turn c scanned { c with accessLog := log ++ [record] } (scanned + 1)
  | evict {record : Cid × UInt64} {log : List (Cid × UInt64)} {entry : NodeCacheEntry N R}
      (hlog : c.accessLog = record :: log) (hentry : c.nodes.lookup record.1 = some entry)
      (hpinned : entry.pinned = false) :
      Turn c scanned
        { c with
          accessLog := log, nodes := c.nodes.erase record.1, bytes := c.bytes - entry.bytes } 0

/-- What the loop does first. -/
theorem evictLoop_cases (c : NodeCache N R) (scanned evicted : Nat) :
    ((c.exceedsLimit = false ∨ c.accessLog = []) ∧
        evictLoop (fuel + 1) c scanned evicted = (evicted, c)) ∨
      (∃ c', c.Turn scanned c' (scanned + 1) ∧ c'.accessLog.length ≤ scanned + 1 ∧
        evictLoop (fuel + 1) c scanned evicted = (evicted, c')) ∨
      ∃ c' scanned' evicted', c.Turn scanned c' scanned' ∧
        (c'.accessLog.length < c.accessLog.length ∧ scanned' ≤ scanned ∨
          c'.accessLog.length = c.accessLog.length ∧ scanned' = scanned + 1 ∧
            scanned + 1 < c.accessLog.length) ∧
        evictLoop (fuel + 1) c scanned evicted = evictLoop fuel c' scanned' evicted' := by
  rw [evictLoop]
  cases hexceeds : c.exceedsLimit with
  | false => exact .inl ⟨.inl rfl, by simp⟩
  | true =>
    rw [if_pos rfl]
    cases hlog : c.accessLog with
    | nil => exact .inl ⟨.inr rfl, rfl⟩
    | cons record log =>
      dsimp only
      cases hentry : c.nodes.lookup record.1 with
      | none =>
        exact .inr (.inr ⟨_, _, _, .stale hlog (by simp [hentry]), .inl ⟨by simp, le_rfl⟩, rfl⟩)
      | some entry =>
        dsimp only
        by_cases hlive : entry.generation = record.2
        · rw [if_neg (not_not.mpr hlive)]
          cases hpinned : entry.pinned with
          | true =>
            have hturn : Turn c scanned { c with accessLog := log ++ [record] } (scanned + 1) :=
              .pinned hlog hentry hlive hpinned
            rw [if_pos rfl]
            by_cases hend : (log ++ [record]).length ≤ scanned + 1
            · rw [if_pos hend]
              exact .inr (.inl ⟨_, hturn, hend, rfl⟩)
            · rw [if_neg hend]
              refine .inr (.inr ⟨_, _, _, hturn, .inr ⟨by simp, rfl, ?_⟩, rfl⟩)
              simpa using hend
          | false =>
            rw [if_neg Bool.false_ne_true, removeEntry]
            dsimp only
            rw [hentry]
            exact .inr (.inr ⟨_, _, _, .evict hlog hentry hpinned,
              .inl ⟨by simp, Nat.zero_le _⟩, rfl⟩)
        · rw [if_pos hlive]
          refine .inr (.inr ⟨_, _, _, .stale hlog ?_, .inl ⟨by simp, le_rfl⟩, rfl⟩)
          rw [hentry]
          rintro _ ⟨⟩
          exact hlive

theorem Turn.evicts {scanned : Nat} (h : c.Turn scanned c' scanned') : c.Evicts c' := by
  cases h with
  | @stale record log hlog hstale =>
    refine ⟨rfl, rfl, fun _ _ h => h, fun _ _ h _ => h, fun ht => ⟨ht.bytes, ?_, ht.disabled⟩⟩
    intro hbounded cid entry hentry
    have hmem := ht.logged hbounded cid entry hentry
    rw [hlog] at hmem
    rcases mem_cons.mp hmem with rfl | hmem
    · exact absurd rfl (hstale entry hentry)
    · exact hmem
  | @pinned record log entry hlog hentry hlive hpinned =>
    refine ⟨rfl, rfl, fun _ _ h => h, fun _ _ h _ => h, fun ht => ⟨ht.bytes, ?_, ht.disabled⟩⟩
    intro hbounded cid entry hentry
    have hmem := ht.logged hbounded cid entry hentry
    rw [hlog] at hmem
    simpa [or_comm] using hmem
  | @evict record log entry hlog hentry hpinned =>
    refine ⟨rfl, rfl, fun cid e h => (KeyMap.lookup_erase_eq_some.mp h).2, ?_, fun ht =>
      ⟨?_, ?_, ?_⟩⟩
    · intro cid e he hp
      refine KeyMap.lookup_erase_eq_some.mpr ⟨?_, he⟩
      rintro rfl
      rw [hentry] at he
      cases he
      rw [hpinned] at hp
      cases hp
    · have hbytes := ht.bytes
      have htotal := KeyMap.total_erase NodeCacheEntry.bytes c.nodes hentry
      unfold held at hbytes ⊢
      dsimp only
      omega
    · intro hbounded cid e he
      obtain ⟨hne, he⟩ := KeyMap.lookup_erase_eq_some.mp he
      have hmem := ht.logged hbounded cid e he
      rw [hlog] at hmem
      rcases mem_cons.mp hmem with rfl | hmem
      · exact absurd rfl hne
      · exact hmem
    · intro hdisabled cid
      rw [ht.disabled hdisabled] at hentry
      cases hentry

theorem evictLoop_evicts (c : NodeCache N R) (scanned evicted : Nat) :
    c.Evicts (evictLoop fuel c scanned evicted).2 := by
  induction fuel generalizing c scanned evicted with
  | zero => exact .refl c
  | succ fuel ih =>
    obtain ⟨-, hloop⟩ | ⟨c', hturn, -, hloop⟩ | ⟨c', scanned', evicted', hturn, -, hloop⟩ :=
      evictLoop_cases fuel c scanned evicted
    · rw [hloop]
      exact .refl c
    · rw [hloop]
      exact hturn.evicts
    · rw [hloop]
      exact hturn.evicts.trans (ih c' scanned' evicted')

/-- The last `scanned` records are of pinned entries. -/
def Scanned (c : NodeCache N R) (scanned : Nat) : Prop :=
  ∀ record ∈ c.accessLog.drop (c.accessLog.length - scanned),
    ∃ entry, c.nodes.lookup record.1 = some entry ∧ entry.pinned = true

theorem Turn.scanned {scanned : Nat} (h : c.Turn scanned c' scanned')
    (hscanned : c.Scanned scanned) : c'.Scanned scanned' := by
  -- the records behind the first one that are among the last `scanned`
  have hrest : ∀ {record log}, c.accessLog = record :: log →
      ∀ r ∈ log.drop (log.length - scanned),
        ∃ entry, c.nodes.lookup r.1 = some entry ∧ entry.pinned = true := by
    intro record log hlog r hr
    refine hscanned r ?_
    rw [hlog, length_cons]
    by_cases hle : scanned ≤ log.length
    · rwa [Nat.succ_sub hle, drop_succ_cons]
    · rw [show log.length + 1 - scanned = 0 by omega, drop_zero]
      exact .tail _ (mem_of_mem_drop hr)
  cases h with
  | stale hlog hstale => exact hrest hlog
  | @pinned record log entry hlog hentry hlive hpinned =>
    intro r hr
    dsimp only at hr
    rw [length_append, length_singleton, Nat.add_sub_add_right,
      drop_append_of_le_length (by omega)] at hr
    rcases mem_append.mp hr with hr | hr
    · exact hrest hlog r hr
    · rw [mem_singleton.mp hr]
      exact ⟨entry, hentry, hpinned⟩
  | evict hlog hentry hpinned =>
    intro r hr
    simp at hr

/-- The loop ends within the limits, or with pinned entries only. -/
theorem evictLoop_done {fuel : Nat} {scanned : Nat} (evicted : Nat)
    (hfuel : c.accessLog.length * c.accessLog.length + (c.accessLog.length - scanned) < fuel)
    (hbounded : c.isUnbounded = false) (htracked : c.Tracked) (hscanned : c.Scanned scanned) :
    (evictLoop fuel c scanned evicted).2.exceedsLimit = false ∨
      ∀ cid entry, (evictLoop fuel c scanned evicted).2.nodes.lookup cid = some entry →
        entry.pinned = true := by
  induction fuel generalizing c scanned evicted with
  | zero => omega
  | succ fuel ih =>
    obtain ⟨hend, hloop⟩ | ⟨c', hturn, hend, hloop⟩ |
      ⟨c', scanned', evicted', hturn, hless, hloop⟩ := evictLoop_cases fuel c scanned evicted
    · rw [hloop]
      rcases hend with hend | hend
      · exact .inl hend
      · refine .inr fun cid entry hentry => ?_
        have hmem := htracked.logged hbounded cid entry hentry
        rw [hend] at hmem
        cases hmem
    · -- every record has been moved, so every entry is pinned
      rw [hloop]
      refine .inr fun cid entry hentry => ?_
      have hbounded' : c'.isUnbounded = false := by
        rw [isUnbounded, hturn.evicts.maxNodes, hturn.evicts.maxBytes]
        exact hbounded
      have hmem := (hturn.evicts.tracked htracked).logged hbounded' cid entry hentry
      have hall := hturn.scanned hscanned
      rw [Scanned, Nat.sub_eq_zero_of_le hend, drop_zero] at hall
      obtain ⟨e, he, hpinned⟩ := hall _ hmem
      rw [hentry] at he
      cases he
      exact hpinned
    · rw [hloop]
      refine ih evicted' ?_ ?_ (hturn.evicts.tracked htracked) (hturn.scanned hscanned)
      · rcases hless with ⟨hshorter, hle⟩ | ⟨heq, rfl, hlt⟩
        · have hsquare : c'.accessLog.length * (c'.accessLog.length + 1) <
              c.accessLog.length * c.accessLog.length :=
            Nat.mul_lt_mul_of_lt_of_le hshorter hshorter (by omega)
          rw [Nat.mul_add_one] at hsquare
          omega
        · rw [heq]
          omega
      · rw [isUnbounded, hturn.evicts.maxNodes, hturn.evicts.maxBytes]
        exact hbounded

theorem evictToLimit_evicts (c : NodeCache N R) : c.Evicts c.evictToLimit.2 :=
  evictLoop_evicts ..

theorem Tracked.evictToLimit (h : c.Tracked) (hbounded : c.isUnbounded = false) :
    c.evictToLimit.2.exceedsLimit = false ∨
      ∀ cid entry, c.evictToLimit.2.nodes.lookup cid = some entry → entry.pinned = true := by
  refine evictLoop_done 0 ?_ hbounded h ?_
  · rw [Nat.mul_add_one]
    omega
  · intro record hrecord
    simp at hrecord

/-! ### Operations -/

/-- Entries that are pinned are held, and still pinned. -/
def KeepsPinned (c c' : NodeCache N R) : Prop :=
  ∀ cid entry, c.nodes.lookup cid = some entry → entry.pinned = true →
    ∃ entry', c'.nodes.lookup cid = some entry' ∧ entry'.pinned = true

theorem KeepsPinned.refl (c : NodeCache N R) : c.KeepsPinned c :=
  fun _ entry h hpinned => ⟨entry, h, hpinned⟩

theorem KeepsPinned.trans (h : a.KeepsPinned b) (h' : b.KeepsPinned c) : a.KeepsPinned c := by
  intro cid entry hentry hpinned
  obtain ⟨entry', hentry', hpinned'⟩ := h cid entry hentry hpinned
  exact h' cid entry' hentry' hpinned'

theorem Evicts.keepsPinned (h : c.Evicts c') : c.KeepsPinned c' :=
  fun cid entry hentry hpinned => ⟨entry, h.pinned cid entry hentry hpinned, hpinned⟩

theorem Evicts.isUnbounded (h : c.Evicts c') : c'.isUnbounded = c.isUnbounded := by
  rw [NodeCache.isUnbounded, NodeCache.isUnbounded, h.maxNodes, h.maxBytes]

theorem mem_accessLog_filter (hentry : c.nodes.lookup cid = some entry)
    (hmem : (cid, entry.generation) ∈ c.accessLog) :
    (cid, entry.generation) ∈ c.accessLog.filter c.isLive := by
  refine mem_filter.mpr ⟨hmem, ?_⟩
  simp [isLive, hentry]

/-- Compaction drops stale records only. -/
theorem compact_evicts (c : NodeCache N R) : c.Evicts c.compactAccessLogIfNeeded := by
  unfold compactAccessLogIfNeeded
  split
  · exact .refl c
  · refine ⟨rfl, rfl, fun _ _ h => h, fun _ _ h _ => h, fun ht => ⟨ht.bytes, ?_, ht.disabled⟩⟩
    intro hbounded cid entry hentry
    exact mem_accessLog_filter hentry (ht.logged hbounded cid entry hentry)

theorem compact_nodes (c : NodeCache N R) : c.compactAccessLogIfNeeded.nodes = c.nodes := by
  unfold compactAccessLogIfNeeded
  split <;> rfl

theorem compact_exceedsLimit (c : NodeCache N R) :
    c.compactAccessLogIfNeeded.exceedsLimit = c.exceedsLimit := by
  unfold compactAccessLogIfNeeded
  split <;> rfl

/-- An entry is set, and the log still has the records of the others. -/
structure Sets (c : NodeCache N R) (cid : Cid) (entry : NodeCacheEntry N R) (c' : NodeCache N R) :
    Prop where
  maxNodes : c'.maxNodes = c.maxNodes
  maxBytes : c'.maxBytes = c.maxBytes
  nodes : c'.nodes = c.nodes.insert cid entry
  log : ∀ record ∈ c.accessLog, record ∈ c'.accessLog
  logged : c.isUnbounded = false → (cid, entry.generation) ∈ c'.accessLog
  bytes : c'.bytes = entry.bytes + KeyMap.total NodeCacheEntry.bytes (c.nodes.erase cid)

theorem Sets.tracked (h : c.Sets cid entry c') (ht : c.Tracked) (henabled : c.isDisabled = false) :
    c'.Tracked where
  bytes := by rw [h.bytes, held, h.nodes, KeyMap.total_insert]
  logged hbounded other e he := by
    have hbounded : c.isUnbounded = false := by
      rwa [NodeCache.isUnbounded, h.maxNodes, h.maxBytes] at hbounded
    rw [h.nodes] at he
    by_cases heq : other = cid
    · subst heq
      rw [AList.lookup_insert] at he
      cases he
      exact h.logged hbounded
    · rw [AList.lookup_insert_ne heq] at he
      exact h.log _ (ht.logged hbounded other e he)
  disabled hdisabled := by
    rw [isDisabled, h.maxNodes, h.maxBytes] at hdisabled
    exact absurd (hdisabled.symm.trans henabled) nofun

theorem Sets.keepsPinned (h : c.Sets cid entry c')
    (hpinned : ∀ e, c.nodes.lookup cid = some e → e.pinned = true → entry.pinned = true) :
    c.KeepsPinned c' := by
  intro other e he hp
  rw [h.nodes]
  by_cases heq : other = cid
  · subst heq
    exact ⟨entry, AList.lookup_insert _, hpinned e he hp⟩
  · exact ⟨e, (AList.lookup_insert_ne heq).trans he, hp⟩

/-- A cache that holds an entry is not disabled. -/
theorem Tracked.enabled (h : c.Tracked) (hentry : c.nodes.lookup cid = some entry) :
    c.isDisabled = false := by
  by_contra hdisabled
  rw [h.disabled (Bool.not_eq_false _ ▸ hdisabled)] at hentry
  cases hentry

theorem Tracked.bytes_erase (h : c.Tracked) (hentry : c.nodes.lookup cid = some entry) :
    c.bytes = entry.bytes + KeyMap.total NodeCacheEntry.bytes (c.nodes.erase cid) := by
  rw [h.bytes, held, KeyMap.total_erase _ _ hentry]

/-- An access. -/
theorem touch_spec (h : c.Tracked) (he : c.nodes.lookup cid = some e)
    (hbytes : entry.bytes = e.bytes) (hpinned : entry.pinned = e.pinned) :
    (c.touch cid entry).Tracked ∧ c.KeepsPinned (c.touch cid entry) := by
  have hsets : c.Sets cid { entry with generation := c.nextGeneration + 1 }
      (record { c.setEntry cid { entry with generation := c.nextGeneration + 1 } with
        nextGeneration := c.nextGeneration + 1 } cid (c.nextGeneration + 1)) :=
    ⟨rfl, rfl, rfl, fun _ hr => mem_append_left _ hr,
      fun _ => mem_append_right _ (mem_singleton.mpr rfl),
      (h.bytes_erase he).trans (by rw [hbytes])⟩
  have hkeeps := hsets.keepsPinned fun e' he' hp => by
    rw [he] at he'
    cases he'
    exact hpinned.trans hp
  exact ⟨(compact_evicts _).tracked (hsets.tracked h (h.enabled he)),
    hkeeps.trans (compact_evicts _).keepsPinned⟩

/-- A change that keeps the generation and the size. -/
theorem setEntry_spec (h : c.Tracked) (he : c.nodes.lookup cid = some e)
    (hgeneration : entry.generation = e.generation) (hbytes : entry.bytes = e.bytes)
    (hpinned : e.pinned = true → entry.pinned = true) :
    (c.setEntry cid entry).Tracked ∧ c.KeepsPinned (c.setEntry cid entry) := by
  have hsets : c.Sets cid entry (c.setEntry cid entry) :=
    ⟨rfl, rfl, rfl, fun _ hr => hr, fun hb => hgeneration ▸ h.logged hb cid e he, by
      rw [hbytes]
      exact h.bytes_erase he⟩
  refine ⟨hsets.tracked h (h.enabled he), hsets.keepsPinned fun e' he' hp => ?_⟩
  rw [he] at he'
  cases he'
  exact hpinned hp

theorem get_spec (toOwned : R → N) (h : c.Tracked) (cid : Cid) :
    (c.get toOwned cid).2.Tracked ∧ c.KeepsPinned (c.get toOwned cid).2 := by
  unfold get
  cases hentry : c.nodes.lookup cid with
  | none => exact ⟨h, .refl c⟩
  | some entry =>
    dsimp only
    split
    · exact setEntry_spec h hentry rfl rfl fun hp => hp
    · exact touch_spec h hentry rfl rfl

theorem getRead_spec (h : c.Tracked) (cid : Cid) :
    (c.getRead cid).2.Tracked ∧ c.KeepsPinned (c.getRead cid).2 := by
  unfold getRead
  cases hentry : c.nodes.lookup cid with
  | none => exact ⟨h, .refl c⟩
  | some entry =>
    dsimp only
    cases entry.node.packed with
    | none => exact ⟨h, .refl c⟩
    | some packed =>
      dsimp only
      split
      · exact ⟨h, .refl c⟩
      · exact touch_spec h hentry rfl rfl

theorem pinExisting_spec (h : c.Tracked) (cid : Cid) :
    (c.pinExisting cid).2.Tracked ∧ c.KeepsPinned (c.pinExisting cid).2 := by
  unfold pinExisting
  cases hentry : c.nodes.lookup cid with
  | none => exact ⟨h, .refl c⟩
  | some entry => exact setEntry_spec h hentry rfl rfl fun _ => rfl

theorem clear_tracked (c : NodeCache N R) : c.clear.2.Tracked :=
  ⟨rfl, fun _ _ _ h => (nomatch (AList.lookup_empty _).symm.trans h), fun _ _ =>
    AList.lookup_empty _⟩

/-- Within the limits, or nothing to evict. -/
def LimitsMet (c : NodeCache N R) : Prop :=
  c.exceedsLimit = false ∨ ∀ cid entry, c.nodes.lookup cid = some entry → entry.pinned = true

theorem LimitsMet.compact (h : c.LimitsMet) : c.compactAccessLogIfNeeded.LimitsMet := by
  rwa [LimitsMet, compact_exceedsLimit, compact_nodes]

theorem limitsMet_of_unbounded (h : c.isUnbounded = true) : c.LimitsMet := by
  obtain ⟨hnodes, hbytes⟩ := Bool.and_eq_true_iff.mp h
  refine .inl ?_
  rw [exceedsLimit, isNone_iff_eq_none.mp hnodes, isNone_iff_eq_none.mp hbytes]
  rfl

/-- Eviction and compaction of a tracked cache. -/
theorem Tracked.evicted (h : c.Tracked) :
    c.evictToLimit.2.compactAccessLogIfNeeded.Tracked ∧
      c.KeepsPinned c.evictToLimit.2.compactAccessLogIfNeeded ∧
        c.evictToLimit.2.compactAccessLogIfNeeded.LimitsMet := by
  have hevicts := c.evictToLimit_evicts
  refine ⟨(compact_evicts _).tracked (hevicts.tracked h),
    hevicts.keepsPinned.trans (compact_evicts _).keepsPinned, LimitsMet.compact ?_⟩
  cases hbounded : c.isUnbounded with
  | true => exact limitsMet_of_unbounded (hevicts.isUnbounded.trans hbounded)
  | false => exact h.evictToLimit hbounded

/-- The counter after an insertion, where the sizes fit. -/
theorem Tracked.putEntry_bytes (h : c.Tracked) (cid : Cid) (entry : NodeCacheEntry N R)
    (hfits : KeyMap.total NodeCacheEntry.bytes (c.nodes.erase cid) + entry.bytes ≤ u64Max) :
    (c.putEntry cid entry).bytes =
      entry.bytes + KeyMap.total NodeCacheEntry.bytes (c.nodes.erase cid) := by
  have hrest : c.bytes - (c.nodes.lookup cid).elim 0 NodeCacheEntry.bytes =
      KeyMap.total NodeCacheEntry.bytes (c.nodes.erase cid) := by
    cases hprevious : c.nodes.lookup cid with
    | none =>
      rw [KeyMap.total_erase_of_none _ _ hprevious, h.bytes]
      rfl
    | some previous => rw [h.bytes_erase hprevious, elim_some, Nat.add_sub_cancel_left]
  rw [putEntry, hrest, saturatingAdd, Nat.min_eq_left hfits, Nat.add_comm]

theorem insertWithPin_spec (h : c.Tracked) (cid : Cid) (node : CachedNode N R) {bytes : Nat}
    (pinned : Bool)
    (hfits : KeyMap.total NodeCacheEntry.bytes (c.nodes.erase cid) + bytes ≤ u64Max) :
    (c.insertWithPin cid node bytes pinned).2.Tracked ∧
      c.KeepsPinned (c.insertWithPin cid node bytes pinned).2 ∧
        (c.insertWithPin cid node bytes pinned).2.LimitsMet := by
  unfold insertWithPin
  cases hdisabled : c.isDisabled with
  | true =>
    rw [if_pos rfl]
    refine ⟨c.clear_tracked, fun cid entry hentry => ?_, .inr fun cid entry hentry => ?_⟩
    · rw [h.disabled hdisabled] at hentry
      cases hentry
    · cases (AList.lookup_empty cid).symm.trans hentry
  | false =>
    rw [if_neg Bool.false_ne_true]
    dsimp only
    generalize hentry : ({ node, generation := c.nextGeneration + 1, bytes, pinned := pinned ||
      (c.nodes.lookup cid).any NodeCacheEntry.pinned } : NodeCacheEntry N R) = entry
    have hgeneration : c.nextGeneration + 1 = entry.generation := by rw [← hentry]
    rw [hgeneration]
    have hpinned : ∀ e, c.nodes.lookup cid = some e → e.pinned = true → entry.pinned = true := by
      intro e he hp
      rw [← hentry, he, any_some, hp, Bool.or_true]
    have hbytes := h.putEntry_bytes cid entry (hentry ▸ hfits)
    have hunlogged : c.isUnbounded = true → c.Sets cid entry (c.putEntry cid entry) :=
      fun hunbounded => ⟨rfl, rfl, rfl, fun _ hr => hr,
        fun hb => absurd (hunbounded.symm.trans hb) nofun, hbytes⟩
    have hlogged : c.Sets cid entry ((c.putEntry cid entry).record cid entry.generation) :=
      ⟨rfl, rfl, rfl, fun _ hr => mem_append_left _ hr,
        fun _ => mem_append_right _ (mem_singleton.mpr rfl), hbytes⟩
    split
    · next hunbounded =>
      have hsets := hunlogged hunbounded
      exact ⟨hsets.tracked h hdisabled, hsets.keepsPinned hpinned,
        limitsMet_of_unbounded hunbounded⟩
    · obtain ⟨htracked, hkeeps, hmet⟩ := (hlogged.tracked h hdisabled).evicted
      exact ⟨htracked, (hlogged.keepsPinned hpinned).trans hkeeps, hmet⟩

theorem unpinAll_spec (h : c.Tracked) : c.unpinAll.2.Tracked ∧ c.unpinAll.2.LimitsMet := by
  have hunpinned : Tracked
      { c with nodes := c.nodes.mapValues fun entry => { entry with pinned := false } } := by
    refine ⟨?_, fun hbounded cid entry hentry => ?_, fun hdisabled cid => ?_⟩
    · exact h.bytes.trans (KeyMap.total_mapValues (f := NodeCacheEntry.bytes)
        (g := fun entry => { entry with pinned := false }) (fun _ => rfl) c.nodes).symm
    · rw [KeyMap.lookup_mapValues] at hentry
      obtain ⟨e, he, rfl⟩ := map_eq_some_iff.mp hentry
      exact h.logged hbounded cid e he
    · rw [KeyMap.lookup_mapValues, h.disabled hdisabled]
      rfl
  exact ⟨hunpinned.evicted.1, hunpinned.evicted.2.2⟩

/-- Without pinned entries nothing is left without a record. -/
theorem clearUnpinned_spec (h : c.Tracked)
    (hpinned : c.isUnbounded = false → ∀ cid entry, c.nodes.lookup cid = some entry →
      entry.pinned = false) : c.clearUnpinned.2.Tracked ∧ c.KeepsPinned c.clearUnpinned.2 := by
  have hlookup : ∀ cid, c.clearUnpinned.2.nodes.lookup cid =
      (c.nodes.lookup cid).filter NodeCacheEntry.pinned := KeyMap.lookup_filterValues _ c.nodes
  refine ⟨⟨rfl, fun hbounded cid entry hentry => ?_, fun hdisabled cid => ?_⟩,
    fun cid entry hentry hp => ⟨entry, ?_, hp⟩⟩
  · rw [hlookup] at hentry
    obtain ⟨hentry, hp⟩ := filter_eq_some_iff.mp hentry
    exact absurd (hp.symm.trans (hpinned hbounded cid entry hentry)) nofun
  · rw [hlookup, h.disabled hdisabled]
    rfl
  · rw [hlookup, hentry]
    exact filter_eq_some_iff.mpr ⟨rfl, hp⟩

/-! ### Runs -/

/-- The operations on a cache. -/
inductive Op (N R : Type) where
  | get (cid : Cid)
  | getRead (cid : Cid)
  | insert (cid : Cid) (node : N) (bytes : Nat)
  | insertPinned (cid : Cid) (node : N) (bytes : Nat)
  | insertRead (cid : Cid) (packed : R) (pinned : Bool)
  | pinExisting (cid : Cid)
  | unpinAll
  | clear
  | clearUnpinned

variable (toOwned : R → N) (retained : R → Nat)

/-- The cache after an operation. -/
def perform (c : NodeCache N R) : Op N R → NodeCache N R
  | .get cid => (c.get toOwned cid).2
  | .getRead cid => (c.getRead cid).2
  | .insert cid node bytes => (c.insert cid node bytes).2
  | .insertPinned cid node bytes => (c.insertPinned cid node bytes).2
  | .insertRead cid packed pinned => (c.insertReadWithPin retained cid packed pinned).2
  | .pinExisting cid => (c.pinExisting cid).2
  | .unpinAll => c.unpinAll.2
  | .clear => c.clear.2
  | .clearUnpinned => c.clearUnpinned.2

/-- The operation inserts an entry of this size. -/
def Op.inserted : Op N R → Option (Cid × Nat)
  | .insert cid _ bytes => some (cid, bytes)
  | .insertPinned cid _ bytes => some (cid, bytes)
  | .insertRead cid packed _ => some (cid, retained packed)
  | _ => none

def Within (c : NodeCache N R) : Prop :=
  (∀ maxNodes, c.maxNodes = some maxNodes → c.len ≤ maxNodes) ∧
    ∀ maxBytes, c.maxBytes = some maxBytes → c.held ≤ maxBytes

/-- The limits are respected by an operation that leads from `c` to `c'`: the counter is the sum of
the sizes; pinned entries stay, unless the operation unpins or drops all; and after an insertion or
unpinning the cache is within its limits or holds pinned entries only. -/
structure Respects (c : NodeCache N R) (op : Op N R) (c' : NodeCache N R) : Prop where
  bytes : c'.bytes = c'.held
  pinned : op ≠ .clear → op ≠ .unpinAll → c.KeepsPinned c'
  limits : (op.inserted retained).isSome ∨ op = .unpinAll →
    c'.Within ∨ ∀ cid entry, c'.nodes.lookup cid = some entry → entry.pinned = true

/-- The operation does not clear around pinned entries of a limited cache, and the sizes of the
entries that it leads to fit in a `usize` together. -/
def Careful (c : NodeCache N R) (op : Op N R) : Prop :=
  (op = .clearUnpinned → c.isUnbounded = false →
    ∀ cid entry, c.nodes.lookup cid = some entry → entry.pinned = false) ∧
  ∀ cid bytes, op.inserted retained = some (cid, bytes) →
    KeyMap.total NodeCacheEntry.bytes (c.nodes.erase cid) + bytes ≤ u64Max

/-- The caches that careful operations lead to. -/
inductive Reachable (maxNodes maxBytes : Option Nat) : NodeCache N R → Prop
  | new : Reachable maxNodes maxBytes (new maxNodes maxBytes)
  | step {c : NodeCache N R} {op : Op N R} (h : Reachable maxNodes maxBytes c)
      (hcareful : Careful retained c op) :
      Reachable maxNodes maxBytes (c.perform toOwned retained op)

variable {toOwned retained}

theorem LimitsMet.within (h : c.LimitsMet) (ht : c.Tracked) :
    c.Within ∨ ∀ cid entry, c.nodes.lookup cid = some entry → entry.pinned = true := by
  refine h.imp_left fun hexceeds => ?_
  obtain ⟨hnodes, hbytes⟩ := Bool.or_eq_false_iff.mp hexceeds
  refine ⟨fun maxNodes hmax => ?_, fun maxBytes hmax => ?_⟩
  · rw [hmax] at hnodes
    simpa using hnodes
  · rw [hmax, ht.bytes] at hbytes
    simpa using hbytes

/-- One careful operation on a tracked cache. -/
theorem Tracked.perform (h : c.Tracked) {op : Op N R} (hcareful : Careful retained c op) :
    (c.perform toOwned retained op).Tracked ∧
      Respects retained c op (c.perform toOwned retained op) := by
  -- an insertion, whatever it inserts
  have hinsert : ∀ cid node bytes pinned, op.inserted retained = some (cid, bytes) →
      c.perform toOwned retained op = (c.insertWithPin cid node bytes pinned).2 →
      (c.perform toOwned retained op).Tracked ∧
        Respects retained c op (c.perform toOwned retained op) := by
    intro cid node bytes pinned hop heq
    obtain ⟨htracked, hkeeps, hmet⟩ :=
      insertWithPin_spec h cid node pinned (hcareful.2 cid bytes hop)
    rw [heq]
    exact ⟨htracked, htracked.bytes, fun _ _ => hkeeps, fun _ => hmet.within htracked⟩
  -- an operation that neither inserts nor unpins all
  have hother : op.inserted retained = none → op ≠ .unpinAll →
      (c.perform toOwned retained op).Tracked →
      (op ≠ .clear → c.KeepsPinned (c.perform toOwned retained op)) →
      (c.perform toOwned retained op).Tracked ∧
        Respects retained c op (c.perform toOwned retained op) := by
    intro hnone hunpin htracked hkeeps
    refine ⟨htracked, htracked.bytes, fun hclear _ => hkeeps hclear, fun hlimits => ?_⟩
    rw [hnone] at hlimits
    exact absurd hlimits (by simp [hunpin])
  cases op with
  | get cid =>
    obtain ⟨htracked, hkeeps⟩ := get_spec toOwned h cid
    exact hother rfl nofun htracked fun _ => hkeeps
  | getRead cid =>
    obtain ⟨htracked, hkeeps⟩ := getRead_spec h cid
    exact hother rfl nofun htracked fun _ => hkeeps
  | insert cid node bytes => exact hinsert cid (.owned node) bytes false rfl rfl
  | insertPinned cid node bytes => exact hinsert cid (.owned node) bytes true rfl rfl
  | insertRead cid packed pinned =>
    exact hinsert cid (.read packed) (retained packed) pinned rfl rfl
  | pinExisting cid =>
    obtain ⟨htracked, hkeeps⟩ := pinExisting_spec h cid
    exact hother rfl nofun htracked fun _ => hkeeps
  | unpinAll =>
    obtain ⟨htracked, hmet⟩ := unpinAll_spec h
    exact ⟨htracked, htracked.bytes, fun _ hne => absurd rfl hne, fun _ => hmet.within htracked⟩
  | clear => exact hother rfl nofun c.clear_tracked fun hne => absurd rfl hne
  | clearUnpinned =>
    obtain ⟨htracked, hkeeps⟩ := clearUnpinned_spec h (hcareful.1 rfl)
    exact hother rfl nofun htracked fun _ => hkeeps

theorem new_tracked (maxNodes maxBytes : Option Nat) :
    (new maxNodes maxBytes : NodeCache N R).Tracked :=
  ⟨rfl, fun _ _ _ h => (nomatch (AList.lookup_empty _).symm.trans h), fun _ _ =>
    AList.lookup_empty _⟩

theorem Reachable.tracked {maxNodes maxBytes : Option Nat}
    (h : Reachable toOwned retained maxNodes maxBytes c) : c.Tracked := by
  induction h with
  | new => exact new_tracked maxNodes maxBytes
  | step _ hcareful ih => exact (ih.perform hcareful).1

/-- In every run of careful operations, every operation respects the limits. -/
theorem cacheLimits_hold {maxNodes maxBytes : Option Nat} {c : NodeCache N R}
    (hreach : Reachable toOwned retained maxNodes maxBytes c) {op : Op N R}
    (hcareful : Careful retained c op) :
    Respects retained c op (c.perform toOwned retained op) :=
  (hreach.tracked.perform hcareful).2

/-- Content identifiers of the examples. -/
def exampleCid (n : UInt8) : Cid := .filled n

/-- A node limit of one and one pinned node: a second node is inserted and evicted. -/
theorem cacheLimits_pinned :
    Respects id (perform id id (new (some 1) none) (.insertPinned (exampleCid 1) 7 10))
      (.insert (exampleCid 2) 8 10 : Op Nat Nat)
      (perform id id (perform id id (new (some 1) none) (.insertPinned (exampleCid 1) 7 10))
        (.insert (exampleCid 2) 8 10)) := by
  have hfirst : Careful id (new (some 1) none : NodeCache Nat Nat)
      (.insertPinned (exampleCid 1) 7 10) := by
    refine ⟨(nomatch ·), ?_⟩
    rintro _ _ ⟨⟩
    decide
  have hsecond : Careful id (perform id id (new (some 1) none : NodeCache Nat Nat)
      (.insertPinned (exampleCid 1) 7 10)) (.insert (exampleCid 2) 8 10) := by
    refine ⟨(nomatch ·), ?_⟩
    rintro _ _ ⟨⟩
    decide +kernel
  exact cacheLimits_hold (.step .new hfirst) hsecond

/-- Two nodes pinned under a limit of one, then `clear_unpinned`. -/
def clearedAroundPins : NodeCache Nat Nat :=
  [.insertPinned (exampleCid 1) 7 10, .insertPinned (exampleCid 2) 8 10, .clearUnpinned].foldl
    (perform id id) (new (some 1) none)

/-- The nodes have no record in the log, so `unpin_all` evicts none of them: two unpinned entries
stay under a limit of one. -/
theorem cacheLimits_fail :
    clearedAroundPins.unpinAll.1 = (2, 0) ∧ clearedAroundPins.unpinAll.2.len = 2 ∧
      ¬ Respects id clearedAroundPins .unpinAll (clearedAroundPins.perform id id .unpinAll) := by
  refine ⟨by decide +kernel, by decide +kernel, fun h => ?_⟩
  rcases h.limits (.inr rfl) with hwithin | hpinned
  · have hlen := hwithin.1 1 (by decide +kernel)
    exact absurd hlen (by decide +kernel)
  · have := hpinned (exampleCid 1) ⟨.owned 7, 1, 10, false⟩ (by decide +kernel)
    cases this

end NodeCache

end Prolly

import Prolly.Boundary
import Prolly.Lib.BuzHash
import Prolly.Lib.RingBuffer

/-!
# Prolly.RollingWindow

The rolling hash of `boundary.rs`. The detector keeps its window in a ring of bytes, reads the hash
of a byte from a table that is filled on demand, and updates the hash of the window by one rotation
and the removal of the byte that leaves it (`Roller.ring`). It decides as the detector whose window
is a list (`Roller.ring_keeps`, `Roller.Keeps.decisions`), and as the one that keeps every byte of
the chunk and hashes the last of them anew (`ringDecisions_eq_recomputed`), for windows of any size.
-/

namespace Prolly

open List
open BoundaryDetector (levelSpec)

/-! ### Hashes of bytes -/

/-- `ByteHashCache`: the hashes of the bytes asked for so far. -/
structure ByteHashCache where
  seed : UInt64
  values : UInt8 → UInt64
  initialized : UInt8 → Bool

namespace ByteHashCache

/-- `ByteHashCache::new`. -/
def new (seed : UInt64) : ByteHashCache := ⟨seed, fun _ => 0, fun _ => false⟩

/-- `ByteHashCache::get`. -/
def get (d : Digests) (c : ByteHashCache) (byte : UInt8) : UInt64 × ByteHashCache :=
  let c :=
    if c.initialized byte then c
    else
      { c with values := Function.update c.values byte (byteHash d c.seed byte)
               initialized := Function.update c.initialized byte true }
  (c.values byte, c)

/-- Every value that is marked as computed is the hash of its byte. -/
structure Sound (d : Digests) (seed : UInt64) (c : ByteHashCache) : Prop where
  keyed : c.seed = seed
  values : ∀ byte, c.initialized byte = true → c.values byte = byteHash d seed byte

variable {d : Digests} {seed : UInt64} {c : ByteHashCache}

theorem new_sound (d : Digests) (seed : UInt64) : (new seed).Sound d seed :=
  ⟨rfl, fun _ h => Bool.noConfusion h⟩

theorem Sound.get (h : c.Sound d seed) (byte : UInt8) :
    (c.get d byte).1 = byteHash d seed byte ∧ (c.get d byte).2.Sound d seed := by
  unfold ByteHashCache.get
  dsimp only
  split
  · next hinit => exact ⟨h.values byte hinit, h⟩
  · rw [h.keyed]
    refine ⟨Function.update_self .., rfl, fun other hother => ?_⟩
    by_cases heq : other = byte
    · subst heq
      exact Function.update_self ..
    · have hinit : c.initialized other = true :=
        Function.update_of_ne heq true c.initialized ▸ hother
      exact (Function.update_of_ne heq _ c.values).trans (h.values other hinit)

end ByteHashCache

/-- `RollingWindow`: a ring of the last bytes. -/
abbrev RollingWindow := RingBuffer UInt8

def windowHash (d : Digests) (seed : UInt64) (window : Bytes) : UInt64 :=
  window.foldl (fun hash byte => rotateLeft hash 1 ^^^ byteHash d seed byte) 0

variable (d : Digests)

theorem toBitVec_windowHash (seed : UInt64) (window : Bytes) :
    (windowHash d seed window).toBitVec =
      buzHash (fun byte => (byteHash d seed byte).toBitVec) window := by
  induction window using List.reverseRecOn with
  | nil => rfl
  | append_singleton window byte ih =>
    rw [buzHash_concat, ← ih, windowHash, foldl_append]
    rfl

theorem windowHash_concat (seed : UInt64) (window : Bytes) (byte : UInt8) :
    windowHash d seed (window ++ [byte]) =
      rotateLeft (windowHash d seed window) 1 ^^^ byteHash d seed byte := by
  rw [windowHash, foldl_append]
  rfl

/-- The rotation is by the size of the window modulo the word size, so a window of 64 bytes takes
its oldest byte out unrotated. -/
theorem windowHash_slide (seed : UInt64) (old : UInt8) (window : Bytes) (byte : UInt8) :
    rotateLeft (windowHash d seed (old :: window)) 1 ^^^ byteHash d seed byte ^^^
        rotateLeft (byteHash d seed old) ((window.length + 1) % 64) =
      windowHash d seed (window ++ [byte]) := by
  apply UInt64.toBitVec_inj.mp
  rw [toBitVec_windowHash, ← buzHash_slide _ old window byte, ← toBitVec_windowHash]
  simp only [rotateLeft, UInt64.toBitVec_xor, BitVec.rotateLeft_mod_eq_rotateLeft]

/-! ### Detectors -/

/-- A way to keep the bytes that are rolled and their hash. -/
structure Roller (W : Type) where
  start : ChunkingSpec → UInt64 → W
  roll : UInt64 → W → UInt8 → W
  clear : W → W
  hash : UInt64 → W → UInt64

/-- The size of the rolling window of a policy. -/
def ChunkingSpec.window (spec : ChunkingSpec) : Nat :=
  match spec.rule with
  | .rollingBuzHash window => window.toNat
  | _ => 0

/-- `BoundaryDetector`, with the rolled bytes kept as a `W`. -/
structure RollingDetector (W : Type) where
  spec : ChunkingSpec
  seed : UInt64
  entries : Nat := 0
  logicalBytes : Nat := 0
  encodedBytes : Nat := 0
  previousMeasure : Nat := 0
  rolled : W

namespace RollingDetector

variable {W : Type}

variable (roller : Roller W) (r : RollingDetector W) (key value : Bytes)

/-- `BoundaryDetector::new`. -/
def new (spec : ChunkingSpec) (level : Nat) : Result (RollingDetector W) := do
  spec.validate
  let spec := levelSpec spec level
  let seed := levelSeed spec level
  return { spec, seed, rolled := roller.start spec seed }

/-- `BoundaryDetector::reset`. -/
def reset : RollingDetector W :=
  { spec := r.spec, seed := r.seed, rolled := roller.clear r.rolled }

/-- The detector with the counters and the hash that decide. -/
def deciding : BoundaryDetector :=
  { spec := r.spec, seed := r.seed, entries := r.entries, logicalBytes := r.logicalBytes,
    encodedBytes := r.encodedBytes, previousMeasure := r.previousMeasure,
    rollingHash := roller.hash r.seed r.rolled }

/-- `roll_byte`. -/
def rollByte (byte : UInt8) : RollingDetector W :=
  { r with rolled := roller.roll r.seed r.rolled byte }

/-- `observe_rolling`. -/
def observeRolling : RollingDetector W :=
  let bytes := match r.spec.input with
    | .key => encodeBytes key
    | .keyValue => encodeBytes key ++ encodeBytes value
  bytes.foldl (rollByte roller) r

/-- The bytes of the entry are rolled where the rule hashes a window. -/
def feed : RollingDetector W :=
  match r.spec.rule with
  | .rollingBuzHash _ => observeRolling roller r key value
  | _ => r

def count (encodedEntryBytes : Nat) : RollingDetector W :=
  { r with
    previousMeasure := (r.deciding roller).measure
    entries := saturatingAdd r.entries 1
    logicalBytes := saturatingAdd (saturatingAdd r.logicalBytes key.length) value.length
    encodedBytes := saturatingAdd r.encodedBytes encodedEntryBytes }

/-- `BoundaryDetector::observe`. -/
def observe (d : Digests) (roller : Roller W) (r : RollingDetector W) (key value : Bytes)
    (encodedEntryBytes : Nat) : Result (Bool × RollingDetector W) :=
  if r.entries = 0 ∧ r.spec.hardMaxNodeBytes.toNat < encodedEntryBytes then
    .error (.entryTooLarge encodedEntryBytes r.spec.hardMaxNodeBytes.toNat)
  else
    let observed := (r.count roller key value encodedEntryBytes).feed roller key value
    .ok (if (observed.deciding roller).closes d key value then (true, observed.reset roller)
      else (false, observed))

end RollingDetector

open RollingDetector (rollByte observeRolling deciding)

/-- The bytes rolled by the code: the window, the hashes of bytes and the hash of the window. -/
structure RingState where
  rollingWindow : RollingWindow
  byteHashCache : Option ByteHashCache
  rollingHash : UInt64 := 0

/-- `roll_byte`. A detector with a rolling rule has a cache. -/
def RingState.rollByte (d : Digests) (s : RingState) (byte : UInt8) : RingState :=
  match s.byteHashCache with
  | none => s
  | some cache =>
    let (incoming, cache) := cache.get d byte
    let hash := rotateLeft s.rollingHash 1 ^^^ incoming
    match s.rollingWindow.push byte with
    | (none, window) => ⟨window, some cache, hash⟩
    | (some old, window) =>
      let (outgoing, cache) := cache.get d old
      ⟨window, some cache, hash ^^^ rotateLeft outgoing (window.capacity % 64)⟩

/-- The rolled bytes of the code. -/
def Roller.ring (d : Digests) : Roller RingState where
  start spec seed :=
    match spec.rule with
    | .rollingBuzHash window => { rollingWindow := .new window.toNat
                                  byteHashCache := some (.new seed) }
    | _ => { rollingWindow := .new 0, byteHashCache := none }
  roll _ s byte := s.rollByte d byte
  clear s := { s with rollingWindow := s.rollingWindow.clear, rollingHash := 0 }
  hash _ s := s.rollingHash

/-- All bytes of the chunk; the hash is that of the last `capacity` of them. -/
structure RecomputedState where
  capacity : Nat
  seen : Bytes := []

/-- The window hash by its definition. -/
def Roller.recomputed (d : Digests) : Roller RecomputedState where
  start spec _ := { capacity := spec.window }
  roll _ s byte := { s with seen := s.seen ++ [byte] }
  clear s := { s with seen := [] }
  hash seed s := windowHash d seed (s.seen.lastN s.capacity)

/-! ### Every roller decides as the list of the window's bytes -/

section

variable {W : Type} {d : Digests} {roller : Roller W} {window : W → Bytes}
  {inv : Nat → UInt64 → W → Prop} {r : RollingDetector W} {spec : ChunkingSpec}

/-- A byte enters a listed window and its hash. -/
def slide (d : Digests) (capacity : Nat) (seed : UInt64) (rolled : Bytes × UInt64) (byte : UInt8) :
    Bytes × UInt64 :=
  let hash := rotateLeft rolled.2 1 ^^^ byteHash d seed byte
  if rolled.1.length < capacity then (rolled.1 ++ [byte], hash)
  else
    match rolled.1 with
    | [] => ([], hash)
    | old :: window =>
      (window ++ [byte], hash ^^^ rotateLeft (byteHash d seed old) (capacity % 64))

theorem BoundaryDetector.rollByte_eq (d : Digests) (capacity : Nat) (b : BoundaryDetector)
    (byte : UInt8) :
    b.rollByte d capacity byte =
      { b with
        rollingWindow := (slide d capacity b.seed (b.rollingWindow, b.rollingHash) byte).1
        rollingHash := (slide d capacity b.seed (b.rollingWindow, b.rollingHash) byte).2 } := by
  unfold BoundaryDetector.rollByte slide
  dsimp only
  split
  · rfl
  · cases hwindow : b.rollingWindow with
    | nil => rfl
    | cons old window => rfl

/-- What the detector is when the window is listed. -/
def RollingDetector.listed (roller : Roller W) (window : W → Bytes) (r : RollingDetector W) :
    BoundaryDetector :=
  { r.deciding roller with rollingWindow := window r.rolled }

/-- The state keeps the bytes of the window, listed by `window`, and their rolling hash. -/
structure Roller.Keeps (d : Digests) (roller : Roller W) (window : W → Bytes)
    (inv : Nat → UInt64 → W → Prop) : Prop where
  start : ∀ spec seed, inv spec.window seed (roller.start spec seed) ∧
    window (roller.start spec seed) = [] ∧ roller.hash seed (roller.start spec seed) = 0
  roll : ∀ capacity seed w, 0 < capacity → inv capacity seed w → ∀ byte,
    inv capacity seed (roller.roll seed w byte) ∧
      (window (roller.roll seed w byte), roller.hash seed (roller.roll seed w byte)) =
        slide d capacity seed (window w, roller.hash seed w) byte
  clear : ∀ capacity seed w, inv capacity seed w → inv capacity seed (roller.clear w) ∧
    window (roller.clear w) = [] ∧ roller.hash seed (roller.clear w) = 0

/-- The detector of a valid policy, with its rolled bytes in order. -/
structure RollingDetector.Ready (inv : Nat → UInt64 → W → Prop) (r : RollingDetector W) : Prop where
  window : ∀ size, r.spec.rule = .rollingBuzHash size → 0 < size.toNat
  rolled : inv r.spec.window r.seed r.rolled

theorem Roller.Keeps.foldl (h : roller.Keeps d window inv) {capacity : Nat} (hpos : 0 < capacity)
    (bytes : Bytes) (r : RollingDetector W) (hinv : inv capacity r.seed r.rolled) :
    (bytes.foldl (rollByte roller) r).spec = r.spec ∧
      (bytes.foldl (rollByte roller) r).seed = r.seed ∧
      inv capacity r.seed (bytes.foldl (rollByte roller) r).rolled ∧
      (bytes.foldl (rollByte roller) r).listed roller window =
        bytes.foldl (BoundaryDetector.rollByte d capacity) (r.listed roller window) := by
  induction bytes generalizing r with
  | nil => exact ⟨rfl, rfl, hinv, rfl⟩
  | cons byte bytes ih =>
    obtain ⟨hroll, hslide⟩ := h.roll _ _ _ hpos hinv byte
    have hlisted : (r.rollByte roller byte).listed roller window =
        (r.listed roller window).rollByte d capacity byte := by
      rw [BoundaryDetector.rollByte_eq]
      simp only [RollingDetector.listed, deciding, ← hslide]
      rfl
    rw [foldl_cons, foldl_cons, ← hlisted]
    exact ih (r.rollByte roller byte) hroll

theorem Roller.Keeps.reset (h : roller.Keeps d window inv) (hr : r.Ready inv) :
    (r.reset roller).Ready inv ∧
      (r.reset roller).listed roller window = (r.listed roller window).reset := by
  obtain ⟨hinv, hwindow, hhash⟩ := h.clear _ _ _ hr.rolled
  refine ⟨⟨hr.window, hinv⟩, ?_⟩
  simp only [RollingDetector.listed, deciding, RollingDetector.reset,
    hwindow, hhash, BoundaryDetector.reset]

/-- The entry's bytes are rolled into the window. -/
theorem Roller.Keeps.feed (h : roller.Keeps d window inv) (hr : r.Ready inv) (key value : Bytes) :
    (r.feed roller key value).Ready inv ∧
      (r.feed roller key value).listed roller window =
        match r.spec.rule with
        | .rollingBuzHash size =>
          (r.listed roller window).observeRolling d size.toNat key value
        | _ => r.listed roller window := by
  unfold RollingDetector.feed
  cases hrule : r.spec.rule with
  | hashThreshold factor => exact ⟨hr, rfl⟩
  | weibull shape => exact ⟨hr, rfl⟩
  | rollingBuzHash size =>
    have hsize : r.spec.window = size.toNat := by rw [ChunkingSpec.window, hrule]
    have hinv := hr.rolled
    rw [hsize] at hinv
    obtain ⟨hspec, hseed, hrolled, hlisted⟩ := h.foldl (hr.window size hrule) _ r hinv
    refine ⟨⟨?_, ?_⟩, hlisted⟩
    · rw [observeRolling, hspec]
      exact hr.window
    · rw [observeRolling, hspec, hseed, hsize]
      exact hrolled

/-- An observation is that of the listed detector. -/
theorem Roller.Keeps.observe (h : roller.Keeps d window inv) (hr : r.Ready inv) (key value : Bytes)
    (n : Nat) :
    (∃ e, r.observe d roller key value n = .error e ∧
        (r.listed roller window).observe d key value n = .error e) ∨
      ∃ boundary r', r.observe d roller key value n = .ok (boundary, r') ∧ r'.Ready inv ∧
        (r.listed roller window).observe d key value n =
          .ok (boundary, r'.listed roller window) := by
  by_cases hlarge : r.entries = 0 ∧ r.spec.hardMaxNodeBytes.toNat < n
  · exact .inl ⟨_, if_pos hlarge, if_pos hlarge⟩
  right
  have hcounted : (r.count roller key value n).Ready inv := ⟨hr.window, hr.rolled⟩
  obtain ⟨hready, hlisted⟩ := h.feed hcounted key value
  generalize hfed : (r.count roller key value n).feed roller key value = fed at hready hlisted
  have hring : r.observe d roller key value n =
      .ok (if (fed.deciding roller).closes d key value then (true, fed.reset roller)
        else (false, fed)) := by
    rw [RollingDetector.observe, if_neg hlarge, hfed]
  have hlist : (r.listed roller window).observe d key value n =
      .ok (if (fed.listed roller window).closes d key value then
        (true, (fed.listed roller window).reset) else (false, fed.listed roller window)) :=
    (if_neg hlarge).trans (congrArg (fun o : BoundaryDetector =>
      (Except.ok (if o.closes d key value then (true, o.reset) else (false, o)) : Result _))
      hlisted.symm)
  rw [hring, hlist]
  -- the decision reads the counters and the hash, not the window
  have hdecision : (fed.deciding roller).closes d key value =
      (fed.listed roller window).closes d key value := rfl
  rw [hdecision]
  split
  · obtain ⟨hreset, hlistedReset⟩ := h.reset hready
    exact ⟨true, _, rfl, hreset, by rw [hlistedReset]⟩
  · exact ⟨false, _, rfl, hready, rfl⟩

theorem levelSpec_window (hvalid : spec.validate = .ok ()) (level : Nat) {size : UInt16}
    (hrule : (levelSpec spec level).rule = .rollingBuzHash size) :
    0 < size.toNat := by
  have hspec : spec.rule = .rollingBuzHash size := by
    unfold levelSpec at hrule
    split at hrule <;> exact hrule
  unfold ChunkingSpec.validate at hvalid
  rw [hspec] at hvalid
  by_contra hzero
  have hsize : size = 0 := UInt16.toNat_inj.mp (by simpa using hzero)
  simp only [hsize, if_true] at hvalid
  split_ifs at hvalid

theorem Roller.Keeps.new (h : roller.Keeps d window inv) (hvalid : spec.validate = .ok ())
    (level : Nat) :
    ∃ r, RollingDetector.new roller spec level = .ok r ∧ r.Ready inv ∧
      BoundaryDetector.new spec level = .ok (r.listed roller window) := by
  obtain ⟨hinv, hwindow, hhash⟩ := h.start (levelSpec spec level)
    (levelSeed (levelSpec spec level) level)
  refine ⟨_, by rw [RollingDetector.new, hvalid, ok_bind]; rfl,
    ⟨fun _ => levelSpec_window hvalid level, hinv⟩, ?_⟩
  rw [BoundaryDetector.new, hvalid, ok_bind]
  simp only [RollingDetector.listed, deciding, hwindow, hhash]
  rfl

end

/-! ### Sequences of entries and resets -/

structure BoundaryDetector.Observation where
  key : Bytes
  value : Bytes
  encodedBytes : Nat
  deriving DecidableEq

/-- What happens to a detector: it observes an entry, or its owner starts a chunk. -/
inductive DetectorEvent where
  | observe (x : BoundaryDetector.Observation)
  | reset

/-- The answers of a detector. An entry that is refused leaves it as it was. -/
def decisions {S : Type} (observe : S → BoundaryDetector.Observation → Result (Bool × S))
    (reset : S → S) : S → List DetectorEvent → List (Result Bool)
  | _, [] => []
  | s, .reset :: events => decisions observe reset (reset s) events
  | s, .observe x :: events =>
    match observe s x with
    | .ok (boundary, s) => .ok boundary :: decisions observe reset s events
    | .error e => .error e :: decisions observe reset s events

def BoundaryDetector.decisions (d : Digests) (spec : ChunkingSpec) (level : Nat)
    (events : List DetectorEvent) : Result (List (Result Bool)) := do
  let b ← BoundaryDetector.new spec level
  return Prolly.decisions (fun b x => b.observe d x.key x.value x.encodedBytes) reset b events

/-- The answers of a new detector of the level, with the rolled bytes kept by `roller`. -/
def RollingDetector.decisions {W : Type} (d : Digests) (roller : Roller W) (spec : ChunkingSpec)
    (level : Nat) (events : List DetectorEvent) : Result (List (Result Bool)) := do
  let r ← RollingDetector.new roller spec level
  return Prolly.decisions (fun r x => r.observe d roller x.key x.value x.encodedBytes)
    (reset roller)
    r events

section

variable {W : Type} {d : Digests} {roller : Roller W} {window : W → Bytes}
  {inv : Nat → UInt64 → W → Prop}

theorem Roller.Keeps.decisions_eq (h : roller.Keeps d window inv) (events : List DetectorEvent)
    {r : RollingDetector W} (hr : r.Ready inv) :
    Prolly.decisions (fun r x => r.observe d roller x.key x.value x.encodedBytes)
        (RollingDetector.reset roller) r events =
      Prolly.decisions (fun b x => b.observe d x.key x.value x.encodedBytes)
        BoundaryDetector.reset (r.listed roller window) events := by
  induction events generalizing r with
  | nil => rfl
  | cons event events ih =>
    cases event with
    | reset =>
      obtain ⟨hready, hlisted⟩ := h.reset hr
      rw [Prolly.decisions, Prolly.decisions, ← hlisted]
      exact ih hready
    | observe x =>
      rw [Prolly.decisions, Prolly.decisions]
      obtain ⟨e, hring, hlist⟩ | ⟨boundary, r', hring, hready, hlist⟩ :=
        h.observe hr x.key x.value x.encodedBytes
      · rw [hring, hlist]
        exact congrArg _ (ih hr)
      · rw [hring, hlist]
        exact congrArg _ (ih hready)

/-- Rolled bytes that are kept in order make the detector of the model. -/
theorem Roller.Keeps.decisions (h : roller.Keeps d window inv) (spec : ChunkingSpec) (level : Nat)
    (events : List DetectorEvent) :
    RollingDetector.decisions d roller spec level events =
      BoundaryDetector.decisions d spec level events := by
  unfold RollingDetector.decisions BoundaryDetector.decisions
  cases hvalid : spec.validate with
  | error e =>
    rw [RollingDetector.new, BoundaryDetector.new, hvalid]
    rfl
  | ok _ =>
    obtain ⟨r, hring, hready, hlist⟩ := h.new hvalid level
    rw [hring, hlist, ok_bind, ok_bind, h.decisions_eq events hready]

end

/-! ### The ring and the definition -/

/-- The state keeps the bytes of the window in its ring. -/
structure RingState.Keeps (d : Digests) (capacity : Nat) (seed : UInt64) (s : RingState) :
    Prop where
  capacity_eq : s.rollingWindow.capacity = capacity
  window : ∃ seen, s.rollingWindow.Holds seen
  cache : 0 < capacity → ∃ c, s.byteHashCache = some c ∧ c.Sound d seed

theorem RingState.Keeps.rollByte {d : Digests} {capacity : Nat} {seed : UInt64} {s : RingState}
    (h : s.Keeps d capacity seed) (hpos : 0 < capacity) (byte : UInt8) :
    (s.rollByte d byte).Keeps d capacity seed ∧
      ((s.rollByte d byte).rollingWindow.contents, (s.rollByte d byte).rollingHash) =
        slide d capacity seed (s.rollingWindow.contents, s.rollingHash) byte := by
  obtain ⟨seen, hholds⟩ := h.window
  obtain ⟨cache, hcache, hsound⟩ := h.cache hpos
  obtain ⟨hincoming, hsound⟩ := hsound.get byte
  have hcapacity := h.capacity_eq
  have hlength : s.rollingWindow.contents.length = min capacity seen.length := by
    rw [hholds.contents, length_lastN, hcapacity]
  rw [RingState.rollByte, hcache, slide]
  dsimp only
  rw [hincoming]
  cases hpush : s.rollingWindow.push byte with
  | mk old window =>
    by_cases hroom : seen.length < capacity
    · obtain ⟨hold, hnext, hkept⟩ := hholds.push_room (hcapacity ▸ hroom) byte
      rw [hpush] at hold hnext hkept
      cases hold
      rw [if_pos (by omega)]
      refine ⟨⟨hkept.trans hcapacity, ⟨_, hnext⟩, fun _ => ⟨_, rfl, hsound⟩⟩, ?_⟩
      dsimp only
      rw [hnext.contents, hkept, lastN_concat_of_lt (hcapacity ▸ hroom), hholds.contents]
    · obtain ⟨hold, hnext, hkept⟩ := hholds.push_full (by omega) (by omega) byte
      rw [hpush] at hold hnext hkept
      rw [if_neg (by omega)]
      have hcontents := hholds.contents
      cases hwindow : seen.lastN s.rollingWindow.capacity with
      | nil =>
        have := congrArg List.length hwindow
        rw [length_lastN, length_nil] at this
        omega
      | cons oldest rest =>
        rw [hwindow] at hold hcontents
        cases hold
        rw [hcontents]
        obtain ⟨houtgoing, hsound⟩ := hsound.get oldest
        refine ⟨⟨hkept.trans hcapacity, ⟨_, hnext⟩, fun _ => ⟨_, rfl, hsound⟩⟩, ?_⟩
        dsimp only
        rw [hnext.contents, hkept, lastN_concat_of_le (by omega) (by omega), hwindow, houtgoing,
          hcapacity, tail_cons]

theorem Roller.ring_keeps :
    (Roller.ring d).Keeps d (fun s => s.rollingWindow.contents) (RingState.Keeps d) where
  start spec seed := by
    unfold Roller.ring ChunkingSpec.window
    dsimp only
    cases hrule : spec.rule with
    | rollingBuzHash size =>
      exact ⟨⟨rfl, ⟨[], RingBuffer.new_holds _⟩, fun _ => ⟨_, rfl, ByteHashCache.new_sound d seed⟩⟩,
        rfl, rfl⟩
    | _ =>
      exact ⟨⟨rfl, ⟨[], RingBuffer.new_holds _⟩, fun h => absurd h (Nat.lt_irrefl 0)⟩, rfl, rfl⟩
  roll _ _ _ hpos h byte := h.rollByte hpos byte
  clear _ _ s h :=
    ⟨⟨h.capacity_eq, ⟨[], s.rollingWindow.clear_holds⟩, h.cache⟩, rfl, rfl⟩

theorem Roller.recomputed_keeps :
    (Roller.recomputed d).Keeps d (fun s => s.seen.lastN s.capacity)
      (fun capacity _ s => s.capacity = capacity) where
  start _ _ := ⟨rfl, lastN_nil _, congrArg (windowHash d _) (lastN_nil _)⟩
  roll capacity seed s hpos h byte := by
    refine ⟨h, ?_⟩
    subst h
    dsimp only [Roller.recomputed]
    rw [slide]
    dsimp only
    by_cases hroom : s.seen.length < s.capacity
    · rw [if_pos (by rw [length_lastN]; omega), lastN_concat_of_lt hroom, windowHash_concat]
    · rw [if_neg (by rw [length_lastN]; omega), lastN_concat_of_le hpos (by omega)]
      have hlength : (s.seen.lastN s.capacity).length = s.capacity := by
        rw [length_lastN]
        omega
      cases hwindow : s.seen.lastN s.capacity with
      | nil =>
        rw [hwindow, length_nil] at hlength
        omega
      | cons old window =>
        rw [hwindow, length_cons] at hlength
        rw [tail_cons, ← windowHash_slide d seed old, hlength]
  clear _ _ _ h := ⟨h, lastN_nil _, congrArg (windowHash d _) (lastN_nil _)⟩

/-- The ring buffer's detector decides as the definition of the window hash does, over any entries
and resets, and both decide as the detector of the model. -/
theorem ringDecisions_eq_recomputed (d : Digests) (spec : ChunkingSpec) (level : Nat)
    (events : List DetectorEvent) :
    RollingDetector.decisions d (.ring d) spec level events =
        RollingDetector.decisions d (.recomputed d) spec level events ∧
      RollingDetector.decisions d (.ring d) spec level events =
        BoundaryDetector.decisions d spec level events := by
  have hring := (Roller.ring_keeps d).decisions spec level events
  have hrecomputed := (Roller.recomputed_keeps d).decisions spec level events
  exact ⟨hring.trans hrecomputed.symm, hring⟩

end Prolly

import Prolly.Format

/-!
# Prolly.Boundary

Chunk boundaries (`boundary.rs`): the resettable detector that decides after each
entry of a level whether the chunk ends there, and the value-stable probe for
key-only entry-count chunking.

Counters saturate at `u64::MAX` as in the source. The fixed-point arithmetic on
`u128` never overflows: its operands stay below `2 ^ 62` times a ratio below 64,
so natural numbers compute the same values.
-/

namespace Prolly

/-- `u64::MAX`. -/
def u64Max : Nat := 2 ^ 64 - 1

/-- `u64::saturating_add`. -/
def saturatingAdd (a b : Nat) : Nat := min (a + b) u64Max

theorem saturatingAdd_le (a b : Nat) : saturatingAdd a b ≤ a + b := Nat.min_le_left _ _

/-- `u64::rotate_left`. -/
def rotateLeft (x : UInt64) (n : Nat) : UInt64 := UInt64.ofBitVec (x.toBitVec.rotateLeft n)

/-! ### Hashing -/

/-- `LEVEL_SALT`. -/
def levelSaltFactor : UInt64 := 0x9e3779b97f4a7c15

/-- The seed of a level: `level` is at most `u8::MAX`. -/
def levelSeed (spec : ChunkingSpec) (level : Nat) : UInt64 :=
  if spec.levelSalt then spec.hashSeed ^^^ (UInt64.ofNat level * levelSaltFactor)
  else spec.hashSeed

/-- `hash_entry`. -/
def hashEntry (d : Digests) (seed : UInt64) (input : BoundaryInput) (key value : Bytes) : UInt64 :=
  match input with
  | .key => d.xxh64 (beBytes 8 key.length ++ key) seed
  | .keyValue =>
    d.xxh64 (beBytes 8 key.length ++ key ++ beBytes 8 value.length ++ value) seed

/-- `byte_hash`. -/
def byteHash (d : Digests) (seed : UInt64) (byte : UInt8) : UInt64 :=
  d.xxh64 [byte] (seed ^^^ 0xa0761d6478bd642f)

/-- `(hash as u32) <= u32::MAX / factor`. -/
def hashWithinThreshold (hash : UInt64) (factor : UInt32) : Bool :=
  hash.toNat % 2 ^ 32 ≤ (2 ^ 32 - 1) / factor.toNat

/-! ### Thresholds in fixed point -/

/-- `Q62`. -/
def q62 : Nat := 2 ^ 62

/-- `fractional_ratio_q62`: 62 steps of long division. -/
def fractionalRatioQ62 (denominator : Nat) : Nat → Nat → Nat → Nat
  | 0, _, quotient => quotient
  | steps + 1, numerator, quotient =>
    let complement := denominator - numerator
    if complement ≤ numerator then
      fractionalRatioQ62 denominator steps (numerator - complement) (2 * quotient + 1)
    else fractionalRatioQ62 denominator steps (2 * numerator) (2 * quotient)

/-- `scaled_ratio_q62`. -/
def scaledRatioQ62 (numerator denominator : Nat) : Nat :=
  let whole := numerator / denominator
  let remainder := numerator % denominator
  let fraction :=
    if remainder ≤ (2 ^ 128 - 1) / q62 then remainder * q62 / denominator
    else fractionalRatioQ62 denominator 62 remainder 0
  whole * q62 + fraction

/-- `exp_neg_series_q62`: the terms of the series for the divisors `1..=8`. -/
def expNegSeriesQ62 (exponent : Nat) : Nat :=
  let step := fun (state : Nat × Nat) (divisor : Nat) =>
    let term := state.2 * exponent / q62 / divisor
    (if divisor % 2 = 0 then state.1 + term else state.1 - term, term)
  (([1, 2, 3, 4, 5, 6, 7, 8] : List Nat).foldl step (q62, q62)).1

/-- The halvings that bring the exponent down to `Q62 / 16`, and their number. The
exponent has at most 128 bits. -/
def halveExponent : Nat → Nat → Nat → Nat × Nat
  | 0, exponent, squarings => (exponent, squarings)
  | steps + 1, exponent, squarings =>
    if q62 / 16 < exponent then halveExponent steps ((exponent + 1) / 2) (squarings + 1)
    else (exponent, squarings)

/-- `survival * survival / Q62`, `squarings` times. -/
def squareSurvival : Nat → Nat → Nat
  | 0, survival => survival
  | squarings + 1, survival => squareSurvival squarings (survival * survival / q62)

/-- `deterministic_exponential_threshold`. -/
def deterministicExponentialThreshold (delta scale : Nat) : Nat :=
  if delta = 0 then 0
  else if scale = 0 ∨ 64 ≤ delta / scale then u64Max
  else
    let (exponent, squarings) := halveExponent 128 (scaledRatioQ62 delta scale) 0
    let survival := squareSurvival squarings (expNegSeriesQ62 exponent)
    (q62 - survival) * u64Max / q62

/-- `weibull_boundary`. -/
def weibullBoundary (hash : UInt64) (previous current target : Nat) (shape : UInt32) : Bool :=
  if shape = 1 then
    hash.toNat ≤ deterministicExponentialThreshold (current - previous) (max target 1)
  else if shape = 2 then
    hash.toNat ≤ deterministicExponentialThreshold (current ^ 2 - previous ^ 2) (max target 1 ^ 2)
  else false

/-! ### The detector -/

theorem ChunkingSpec.validate_eq_ok {spec : ChunkingSpec} (h : spec.validate = .ok ()) :
    0 < spec.min.toNat ∧ spec.min.toNat ≤ spec.max.toNat ∧ 0 < spec.hardMaxNodeBytes.toNat := by
  unfold ChunkingSpec.validate at h
  split at h
  · cases h
  next hbounds =>
  split at h
  · cases h
  next hhard =>
  simp only [not_or, UInt64.not_lt, UInt64.le_iff_toNat_le] at hbounds
  have hpos : ∀ x : UInt64, x ≠ 0 → 0 < x.toNat := fun x hx =>
    Nat.pos_of_ne_zero fun h => hx (UInt64.toNat_inj.mp h)
  exact ⟨hpos _ hbounds.1, Nat.le_trans hbounds.2.1 hbounds.2.2, hpos _ hhard⟩

/-- `BoundaryDetector`: the state of one ordered tree level. The rolling window is
listed oldest byte first. -/
structure BoundaryDetector where
  spec : ChunkingSpec
  seed : UInt64
  entries : Nat := 0
  logicalBytes : Nat := 0
  encodedBytes : Nat := 0
  previousMeasure : Nat := 0
  rollingWindow : Bytes := []
  rollingHash : UInt64 := 0
  deriving DecidableEq

namespace BoundaryDetector

/-- The policy a level uses: internal nodes hold at least two children. -/
def levelSpec (spec : ChunkingSpec) (level : Nat) : ChunkingSpec :=
  if 0 < level ∧ spec.min < 2 then
    { spec with min := 2, target := max spec.target 2, max := max spec.max 2 }
  else spec

/-- The policy of a parent level asks for two children. -/
theorem levelSpec_bounds {spec : ChunkingSpec} (h : spec.validate = .ok ()) {level : Nat}
    (hlevel : 0 < level) :
    max 2 spec.min.toNat ≤ (levelSpec spec level).min.toNat ∧
      max 2 spec.min.toNat ≤ (levelSpec spec level).max.toNat := by
  obtain ⟨-, hmax, -⟩ := ChunkingSpec.validate_eq_ok h
  have htwo : (2 : UInt64).toNat = 2 := by decide
  unfold levelSpec
  split
  · next hsmall =>
    have hmin : spec.min.toNat < 2 := htwo ▸ UInt64.lt_iff_toNat_lt.mp hsmall.2
    rw [Nat.max_eq_left (Nat.le_of_lt hmin)]
    refine ⟨Nat.le_of_eq htwo.symm, ?_⟩
    show 2 ≤ (if spec.max ≤ 2 then 2 else spec.max).toNat
    split
    · exact Nat.le_of_eq htwo.symm
    · next hlt =>
      rw [UInt64.not_le, UInt64.lt_iff_toNat_lt] at hlt
      exact Nat.le_of_lt hlt
  · next hlarge =>
    have hmin : ¬ spec.min < 2 := fun h => hlarge ⟨hlevel, h⟩
    rw [UInt64.not_lt, UInt64.le_iff_toNat_le, htwo] at hmin
    rw [Nat.max_eq_right hmin]
    exact ⟨Nat.le_refl _, hmax⟩

variable (spec : ChunkingSpec) {b b' : BoundaryDetector} {d : Digests} {key value : Bytes} {n : Nat}
  {boundary : Bool}

theorem levelSpec_measure (level : Nat) : (levelSpec spec level).measure = spec.measure := by
  unfold levelSpec
  split <;> rfl

theorem levelSpec_hardMax (level : Nat) :
    (levelSpec spec level).hardMaxNodeBytes = spec.hardMaxNodeBytes := by
  unfold levelSpec
  split <;> rfl

/-- `BoundaryDetector::new`. -/
def new (spec : ChunkingSpec) (level : Nat) : Result BoundaryDetector := do
  spec.validate
  return { spec := levelSpec spec level, seed := levelSeed (levelSpec spec level) level }

/-- `BoundaryDetector::reset`. -/
def reset (b : BoundaryDetector) : BoundaryDetector := { spec := b.spec, seed := b.seed }

/-- `BoundaryDetector::measure`. -/
def measure (b : BoundaryDetector) : Nat :=
  match b.spec.measure with
  | .entryCount => b.entries
  | .logicalBytes => b.logicalBytes
  | .encodedBytes => b.encodedBytes

/-- `roll_byte`, with a window of `capacity` bytes. -/
def rollByte (d : Digests) (capacity : Nat) (b : BoundaryDetector) (byte : UInt8) :
    BoundaryDetector :=
  let hash := rotateLeft b.rollingHash 1 ^^^ byteHash d b.seed byte
  if b.rollingWindow.length < capacity then
    { b with rollingHash := hash, rollingWindow := b.rollingWindow ++ [byte] }
  else
    match b.rollingWindow with
    | [] => { b with rollingHash := hash }
    | old :: window =>
      { b with
        rollingHash := hash ^^^ rotateLeft (byteHash d b.seed old) (capacity % 64)
        rollingWindow := window ++ [byte] }

/-- `observe_rolling`. -/
def observeRolling (d : Digests) (capacity : Nat) (b : BoundaryDetector) (key value : Bytes) :
    BoundaryDetector :=
  let bytes := match b.spec.input with
    | .key => encodeBytes key
    | .keyValue => encodeBytes key ++ encodeBytes value
  bytes.foldl (rollByte d capacity) b

def count (b : BoundaryDetector) (key value : Bytes) (encodedEntryBytes : Nat) :
    BoundaryDetector :=
  { b with
    previousMeasure := b.measure
    entries := saturatingAdd b.entries 1
    logicalBytes := saturatingAdd (saturatingAdd b.logicalBytes key.length) value.length
    encodedBytes := saturatingAdd b.encodedBytes encodedEntryBytes }

/-- The decision of `observe` once the entry is counted. -/
def closes (d : Digests) (b : BoundaryDetector) (key value : Bytes) : Bool :=
  let measure := b.measure
  if b.spec.hardMaxNodeBytes.toNat ≤ b.encodedBytes ∨ b.spec.max.toNat ≤ measure then true
  else if measure < b.spec.min.toNat then false
  else
    match b.spec.rule with
    | .hashThreshold factor =>
      hashWithinThreshold (hashEntry d b.seed b.spec.input key value) factor
    | .weibull shape =>
      weibullBoundary (hashEntry d b.seed b.spec.input key value) b.previousMeasure measure
        b.spec.target.toNat shape
    | .rollingBuzHash _ =>
      let delta := max measure b.spec.min.toNat - max b.previousMeasure b.spec.min.toNat
      let scale := max (b.spec.target.toNat - b.spec.min.toNat) 1
      b.rollingHash.toNat ≤ deterministicExponentialThreshold delta scale

/-- `BoundaryDetector::observe`: whether the chunk ends after the entry, and the next
state. -/
def observe (d : Digests) (b : BoundaryDetector) (key value : Bytes) (encodedEntryBytes : Nat) :
    Result (Bool × BoundaryDetector) :=
  if b.entries = 0 ∧ b.spec.hardMaxNodeBytes.toNat < encodedEntryBytes then
    .error (.entryTooLarge encodedEntryBytes b.spec.hardMaxNodeBytes.toNat)
  else
    let counted := b.count key value encodedEntryBytes
    let observed := match b.spec.rule with
      | .rollingBuzHash window => observeRolling d window.toNat counted key value
      | _ => counted
    .ok (if observed.closes d key value then (true, observed.reset) else (false, observed))

/-! What an observation does to the counters: rolling bytes through the window does not
touch them. -/

/-- Detectors that differ only in the rolling hash. -/
structure SameCounters (b b' : BoundaryDetector) : Prop where
  spec : b'.spec = b.spec
  seed : b'.seed = b.seed
  entries : b'.entries = b.entries
  logicalBytes : b'.logicalBytes = b.logicalBytes
  encodedBytes : b'.encodedBytes = b.encodedBytes
  previousMeasure : b'.previousMeasure = b.previousMeasure

theorem SameCounters.refl (b : BoundaryDetector) : b.SameCounters b :=
  ⟨rfl, rfl, rfl, rfl, rfl, rfl⟩

theorem SameCounters.trans {a c : BoundaryDetector} (h : a.SameCounters b) (h' : b.SameCounters c) :
    a.SameCounters c :=
  ⟨h'.spec.trans h.spec, h'.seed.trans h.seed, h'.entries.trans h.entries,
    h'.logicalBytes.trans h.logicalBytes, h'.encodedBytes.trans h.encodedBytes,
    h'.previousMeasure.trans h.previousMeasure⟩

theorem SameCounters.measure (h : b.SameCounters b') : b'.measure = b.measure := by
  simp [BoundaryDetector.measure, h.spec, h.entries, h.logicalBytes, h.encodedBytes]

theorem rollByte_counters (d : Digests) (capacity : Nat) (b : BoundaryDetector) (byte : UInt8) :
    b.SameCounters (b.rollByte d capacity byte) := by
  unfold rollByte
  dsimp only
  split
  · exact ⟨rfl, rfl, rfl, rfl, rfl, rfl⟩
  · split <;> exact ⟨rfl, rfl, rfl, rfl, rfl, rfl⟩

theorem observeRolling_counters (d : Digests) (capacity : Nat) (b : BoundaryDetector)
    (key value : Bytes) : b.SameCounters (b.observeRolling d capacity key value) := by
  have hfold : ∀ (bytes : Bytes) (b : BoundaryDetector),
      b.SameCounters (bytes.foldl (rollByte d capacity) b) := by
    intro bytes
    induction bytes with
    | nil => exact .refl
    | cons byte bytes ih => exact fun b => (rollByte_counters d capacity b byte).trans (ih _)
  exact hfold _ b

/-- An observation that succeeds counts the entry, decides, and starts afresh after a
boundary. -/
theorem observe_eq_ok (h : b.observe d key value n = .ok (boundary, b')) :
    ∃ o, (b.count key value n).SameCounters o ∧ boundary = o.closes d key value ∧
      b' = if boundary then o.reset else o := by
  have hdecide : ∀ o, (b.count key value n).SameCounters o →
      (.ok (if o.closes d key value then (true, o.reset) else (false, o)) : Result _) =
        .ok (boundary, b') →
      ∃ o, (b.count key value n).SameCounters o ∧ boundary = o.closes d key value ∧
        b' = if boundary then o.reset else o := by
    intro o hcounters h
    refine ⟨o, hcounters, ?_⟩
    split at h
    · next hcloses =>
      cases h
      exact ⟨hcloses.symm, rfl⟩
    · next hcloses =>
      cases h
      exact ⟨(Bool.eq_false_iff.mpr hcloses).symm, rfl⟩
  unfold observe at h
  split at h
  · cases h
  · dsimp only at h
    split at h
    · exact hdecide _ (observeRolling_counters ..) h
    · exact hdecide _ (.refl _) h

theorem observe_spec (h : b.observe d key value n = .ok (boundary, b')) : b'.spec = b.spec := by
  obtain ⟨o, hcounters, -, rfl⟩ := observe_eq_ok h
  split
  · exact hcounters.spec
  · exact hcounters.spec

/-- A chunk below its minimum stays open unless its bytes reach the cap. -/
theorem closes_eq_false (hcap : b.encodedBytes < b.spec.hardMaxNodeBytes.toNat)
    (hmax : b.measure < b.spec.max.toNat) (hmin : b.measure < b.spec.min.toNat) :
    b.closes d key value = false := by
  unfold closes
  rw [if_neg (by omega), if_pos hmin]

end BoundaryDetector

/-- `entry_count_boundary`: whether a chunk of `count` entries may end at `key`, for
key-only entry-count chunking. -/
def entryCountBoundary (d : Digests) (spec : ChunkingSpec) (level count : Nat) (key : Bytes) :
    Result Bool := do
  spec.validate
  match spec.rule with
  | .hashThreshold factor =>
    if spec.measure ≠ .entryCount ∨ spec.input ≠ .key then
      .error (.invalidFormat
        "entry-count boundary probe requires key-only entry-count chunking")
    else if spec.max.toNat ≤ count then .ok true
    else if count < spec.min.toNat then .ok false
    else .ok (hashWithinThreshold (hashEntry d (levelSeed spec level) spec.input key []) factor)
  | _ => .error (.invalidFormat "entry-count boundary probe requires a hash-threshold rule")

end Prolly

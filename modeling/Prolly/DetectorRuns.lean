import Prolly.RollingWindow

/-!
# Prolly.DetectorRuns

Runs of a boundary detector over any sequence of entries. The counters of a detector are the sizes
of its open chunk, up to saturation (`Counts`), whatever was observed and reset before. So a chunk
ends only at its minimum or at the hard cap, and at the latest where it reaches its maximum.

Above the leaf level the detector raises a minimum of one to two, in the unit in which chunks are
measured. Where entries are counted that leaves no chunk with a single entry. Where bytes are
counted it does not: an entry of two bytes may end its chunk by itself, so that a level may have as
many nodes as the one below (`chunkBounds_iff`).

`entry_count_boundary` decides as the detector does, except for the first entry of a chunk above the
leaf level: it does not raise the minimum (`entryCountBoundary_iff`).
-/

namespace Prolly

open List
open ChunkingSpec (validate_eq_ok validate)

namespace BoundaryDetector

/-- The size of a chunk in the unit of the policy. -/
def chunkSize (measure : ChunkMeasure) (chunk : List Observation) : Nat :=
  match measure with
  | .entryCount => chunk.length
  | .logicalBytes => (chunk.map fun x => x.key.length + x.value.length).sum
  | .encodedBytes => (chunk.map Observation.encodedBytes).sum

/-- The encoded bytes of the chunk have reached the hard cap. -/
def Forced (spec : ChunkingSpec) (chunk : List Observation) : Prop :=
  spec.hardMaxNodeBytes.toNat ≤ chunkSize .encodedBytes chunk

instance (spec : ChunkingSpec) (chunk : List Observation) : Decidable (Forced spec chunk) :=
  inferInstanceAs (Decidable (_ ≤ _))

/-- The chunks that a detector ends and the one it leaves open, from a chunk that is open on
`current`. -/
def chunksFrom (d : Digests) : BoundaryDetector → List Observation → List Observation →
    Result (List (List Observation) × List Observation)
  | _, current, [] => .ok ([], current)
  | b, current, x :: xs => do
      let (boundary, b) ← b.observe d x.key x.value x.encodedBytes
      if boundary then
        let (closed, rest) ← chunksFrom d b [] xs
        return ((current ++ [x]) :: closed, rest)
      else chunksFrom d b (current ++ [x]) xs

/-- The chunks of a sequence of entries at a level. -/
def chunksOf (d : Digests) (spec : ChunkingSpec) (level : Nat) (xs : List Observation) :
    Result (List (List Observation) × List Observation) := do
  let b ← new spec level
  chunksFrom d b [] xs

/-! ### Counters -/

variable {d : Digests} {b b' : BoundaryDetector} {spec : ChunkingSpec} {seed : UInt64}
  {current : List Observation} {x : Observation} {boundary : Bool} {level : Nat}
  {xs rest : List Observation} {closed : List (List Observation)} (capacity : Nat) {factor : UInt32}

theorem chunkSize_append (measure : ChunkMeasure) (c c' : List Observation) :
    chunkSize measure (c ++ c') = chunkSize measure c + chunkSize measure c' := by
  cases measure <;> simp [chunkSize]

/-- The counters of the detector are those of the chunk, up to saturation. -/
structure Counts (spec : ChunkingSpec) (seed : UInt64) (b : BoundaryDetector)
    (current : List Observation) : Prop where
  spec : b.spec = spec
  seed : b.seed = seed
  entries : b.entries = min (chunkSize .entryCount current) u64Max
  logicalBytes : b.logicalBytes = min (chunkSize .logicalBytes current) u64Max
  encodedBytes : b.encodedBytes = min (chunkSize .encodedBytes current) u64Max

theorem Counts.measure (h : Counts spec seed b current) :
    b.measure = min (chunkSize spec.measure current) u64Max := by
  rw [BoundaryDetector.measure, h.spec]
  cases spec.measure with
  | entryCount => exact h.entries
  | logicalBytes => exact h.logicalBytes
  | encodedBytes => exact h.encodedBytes

theorem Counts.reset (h : Counts spec seed b current) : Counts spec seed b.reset [] :=
  ⟨h.spec, h.seed, rfl, rfl, rfl⟩

theorem new_counts (h : new spec level = .ok b) :
    Counts (levelSpec spec level) (levelSeed (levelSpec spec level) level) b [] := by
  obtain ⟨_, -, h⟩ := of_bind h
  cases h
  exact ⟨rfl, rfl, rfl, rfl, rfl⟩

/-- One more entry counted. -/
theorem Counts.count (h : Counts spec seed b current) (x : Observation) :
    Counts spec seed (b.count x.key x.value x.encodedBytes) (current ++ [x]) where
  spec := h.spec
  seed := h.seed
  entries := by
    show saturatingAdd b.entries 1 = _
    rw [h.entries, chunkSize_append, saturatingAdd]
    simp only [chunkSize, length_singleton]
    omega
  logicalBytes := by
    show saturatingAdd (saturatingAdd b.logicalBytes x.key.length) x.value.length = _
    rw [h.logicalBytes, chunkSize_append, saturatingAdd, saturatingAdd]
    simp only [chunkSize, map_cons, map_nil, sum_cons, sum_nil]
    omega
  encodedBytes := by
    show saturatingAdd b.encodedBytes x.encodedBytes = _
    rw [h.encodedBytes, chunkSize_append, saturatingAdd]
    simp only [chunkSize, map_cons, map_nil, sum_cons, sum_nil]
    omega

theorem Counts.congr (h : Counts spec seed b current) (hsame : b.SameCounters b') :
    Counts spec seed b' current :=
  ⟨hsame.spec.trans h.spec, hsame.seed.trans h.seed, hsame.entries.trans h.entries,
    hsame.logicalBytes.trans h.logicalBytes, hsame.encodedBytes.trans h.encodedBytes⟩

theorem toNat_le_u64Max (n : UInt64) : n.toNat ≤ u64Max :=
  Nat.le_sub_one_of_lt n.toNat_lt

/-- What ends a chunk. -/
theorem Counts.closes (h : Counts spec seed b current) (key value : Bytes) :
    b.closes d key value = true ↔ Forced spec current ∨
      spec.max.toNat ≤ chunkSize spec.measure current ∨
      (spec.min.toNat ≤ chunkSize spec.measure current ∧
        match spec.rule with
        | .hashThreshold factor =>
          hashWithinThreshold (hashEntry d seed spec.input key value) factor = true
        | .weibull shape =>
          weibullBoundary (hashEntry d seed spec.input key value) b.previousMeasure b.measure
            spec.target.toNat shape = true
        | .rollingBuzHash _ =>
          b.rollingHash.toNat ≤ deterministicExponentialThreshold
            (max b.measure spec.min.toNat - max b.previousMeasure spec.min.toNat)
            (max (spec.target.toNat - spec.min.toNat) 1)) := by
  have hcap := toNat_le_u64Max spec.hardMaxNodeBytes
  have hmax := toNat_le_u64Max spec.max
  have hmin := toNat_le_u64Max spec.min
  have hmeasure := h.measure
  rw [BoundaryDetector.closes, h.spec, h.seed]
  dsimp only
  by_cases hend : spec.hardMaxNodeBytes.toNat ≤ b.encodedBytes ∨ spec.max.toNat ≤ b.measure
  · rw [if_pos hend]
    rw [h.encodedBytes, hmeasure] at hend
    unfold Forced
    refine ⟨fun _ => ?_, fun _ => rfl⟩
    rcases hend with hend | hend
    · exact .inl (by omega)
    · exact .inr (.inl (by omega))
  · rw [if_neg hend]
    have hopen : ¬ Forced spec current ∧ ¬ spec.max.toNat ≤ chunkSize spec.measure current := by
      rw [h.encodedBytes, hmeasure] at hend
      unfold Forced
      exact ⟨fun hf => hend (.inl (by omega)), fun hf => hend (.inr (by omega))⟩
    simp only [hopen.1, hopen.2, false_or]
    by_cases hsmall : b.measure < spec.min.toNat
    · have hlt : ¬ spec.min.toNat ≤ chunkSize spec.measure current := by omega
      simp [hsmall, hlt]
    · have hle : spec.min.toNat ≤ chunkSize spec.measure current := by omega
      rw [if_neg hsmall]
      simp only [hle, true_and]
      cases spec.rule with
      | hashThreshold factor => rfl
      | weibull shape => rfl
      | rollingBuzHash window => exact decide_eq_true_iff

/-- One observation: a chunk that ends has reached its minimum or the cap, one that stays open has
reached neither its maximum nor the cap. -/
theorem Counts.observe (h : Counts spec seed b current) (hvalid : spec.min.toNat ≤ spec.max.toNat)
    (hobserve : b.observe d x.key x.value x.encodedBytes = .ok (boundary, b')) :
    (boundary = true → (Forced spec (current ++ [x]) ∨
        spec.min.toNat ≤ chunkSize spec.measure (current ++ [x])) ∧ Counts spec seed b' []) ∧
      (boundary = false → ¬ Forced spec (current ++ [x]) ∧
        chunkSize spec.measure (current ++ [x]) < spec.max.toNat ∧
          Counts spec seed b' (current ++ [x])) := by
  obtain ⟨o, hsame, rfl, rfl⟩ := observe_eq_ok hobserve
  have hcounts := (h.count x).congr hsame
  have hcloses := hcounts.closes (d := d) x.key x.value
  refine ⟨fun hb => ?_, fun hb => ?_⟩
  · rw [hb] at hcloses ⊢
    refine ⟨?_, hcounts.reset⟩
    rcases hcloses.mp rfl with hforced | hmax | ⟨hmin, -⟩
    · exact .inl hforced
    · exact .inr (hvalid.trans hmax)
    · exact .inr hmin
  · rw [hb] at hcloses ⊢
    refine ⟨fun hforced => ?_, ?_, hcounts⟩
    · exact Bool.false_ne_true (hcloses.mpr (.inl hforced))
    · by_contra hmax
      exact Bool.false_ne_true (hcloses.mpr (.inr (.inl (not_lt.mp hmax))))

/-! ### Chunks -/

def LeftOpen (spec : ChunkingSpec) (c : List Observation) : Prop :=
  c = [] ∨ (¬ Forced spec c ∧ chunkSize spec.measure c < spec.max.toNat)

/-- A chunk that a detector has ended, at its last entry and not before. -/
structure Ended (spec : ChunkingSpec) (c : List Observation) : Prop where
  nonempty : c ≠ []
  reached : Forced spec c ∨ spec.min.toNat ≤ chunkSize spec.measure c
  before : ∀ q, q <+: c → q ≠ c → LeftOpen spec q

/-- The chunks of a run. -/
theorem chunksFrom_spec (hvalid : spec.min.toNat ≤ spec.max.toNat) (h : Counts spec seed b current)
    (hopen : ∀ q, q <+: current → LeftOpen spec q)
    (hrun : chunksFrom d b current xs = .ok (closed, rest)) :
    current ++ xs = closed.flatten ++ rest ∧ (∀ c ∈ closed, Ended spec c) ∧
      ∀ q, q <+: rest → LeftOpen spec q := by
  induction xs generalizing b current closed with
  | nil =>
    cases hrun
    exact ⟨by simp, by simp, hopen⟩
  | cons x xs ih =>
    obtain ⟨⟨boundary, b'⟩, hobserve, hrun⟩ := of_bind hrun
    obtain ⟨hclosed, hleft⟩ := h.observe hvalid hobserve
    have hsplit : current ++ x :: xs = (current ++ [x]) ++ xs := by simp
    cases boundary with
    | true =>
      obtain ⟨⟨closed', rest'⟩, hrest, hrun⟩ := of_bind hrun
      cases hrun
      obtain ⟨hreached, hcounts⟩ := hclosed rfl
      obtain ⟨hflat, hended, hlast⟩ := ih hcounts
        (fun q hq => .inl (prefix_nil.mp hq)) hrest
      refine ⟨?_, forall_mem_cons.mpr ⟨⟨by simp, hreached, fun q hq hne => ?_⟩, hended⟩, hlast⟩
      · rw [nil_append] at hflat
        simp [hflat]
      · exact hopen q ((prefix_concat_iff.mp hq).resolve_left hne)
    | false =>
      obtain ⟨hforced, hmax, hcounts⟩ := hleft rfl
      obtain ⟨hflat, hended, hlast⟩ := ih hcounts (fun q hq => by
        rcases prefix_concat_iff.mp hq with rfl | hq
        · exact .inr ⟨hforced, hmax⟩
        · exact hopen q hq) hrun
      exact ⟨hsplit.trans hflat, hended, hlast⟩

/-- How many nodes a level gets from chunks. -/
def nodeCount (closed : List (List Observation)) (rest : List Observation) : Nat :=
  closed.length + if rest = [] then 0 else 1

/-- The bounds on the chunks of `xs`: none ends below the minimum unless the cap forces it, each
ends where it reaches the maximum, and above the leaf level none but the last has a single entry
unless the cap forces it, so that without forced ends there are at most half as many chunks as
entries. -/
structure Bounds (spec : ChunkingSpec) (level : Nat) (xs : List Observation)
    (closed : List (List Observation)) (rest : List Observation) : Prop where
  min : ∀ c ∈ closed, spec.min.toNat ≤ chunkSize spec.measure c ∨ Forced spec c
  max : ∀ c ∈ closed, ∀ q, q <+: c → q ≠ c → chunkSize spec.measure q < spec.max.toNat
  max_rest : ∀ q, q <+: rest → chunkSize spec.measure q < spec.max.toNat
  single : 0 < level → ∀ pre c post, closed = pre ++ c :: post → post ≠ [] ∨ rest ≠ [] →
    c.length = 1 → Forced spec c
  fanOut : 0 < level → (∀ c ∈ closed, ¬ Forced spec c) →
    2 * nodeCount closed rest ≤ xs.length + 1

/-- Whatever a detector observes, its chunks keep the bounds. -/
def KeepsBounds (d : Digests) (spec : ChunkingSpec) (level : Nat) : Prop :=
  ∀ xs closed rest, chunksOf d spec level xs = .ok (closed, rest) → Bounds spec level xs closed rest

/-- Chunks of which all but the last have two entries are at most half as many as the entries. -/
theorem two_mul_nodeCount_le (hne : ∀ c ∈ closed, c ≠ [])
    (h : ∀ pre c post, closed = pre ++ c :: post → post ≠ [] ∨ rest ≠ [] → 2 ≤ c.length) :
    2 * nodeCount closed rest ≤ (closed.flatten ++ rest).length + 1 := by
  induction closed with
  | nil =>
    cases rest with
    | nil => simp [nodeCount]
    | cons x rest => simp [nodeCount]
  | cons c closed ih =>
    have hpos : 0 < c.length := length_pos_iff.mpr (hne c mem_cons_self)
    have hrest := ih (fun c' hc' => hne c' (.tail _ hc'))
      fun pre c' post hsplit => h (c :: pre) c' post (by rw [hsplit]; rfl)
    have hcount : nodeCount (c :: closed) rest = nodeCount closed rest + 1 := by
      simp only [nodeCount, length_cons]
      omega
    rw [hcount, flatten_cons, append_assoc, length_append]
    by_cases hlast : closed = [] ∧ rest = []
    · obtain ⟨rfl, rfl⟩ := hlast
      simp [nodeCount]
      omega
    · have htwo := h [] c closed rfl (by
        by_cases hclosed : closed = []
        · exact .inr fun hrest => hlast ⟨hclosed, hrest⟩
        · exact .inl hclosed)
      omega

/-! ### The policy of a level -/

theorem toNat_max (a b : UInt64) : (max a b).toNat = max a.toNat b.toNat := by
  show (if a ≤ b then b else a).toNat = _
  simp only [UInt64.le_iff_toNat_le]
  split <;> omega

theorem levelSpec_zero (spec : ChunkingSpec) : levelSpec spec 0 = spec := if_neg (by simp)

/-- Above the leaf level, the minimum and the maximum are at least two. -/
theorem levelSpec_eq (hvalid : spec.validate = .ok ()) (hlevel : 0 < level) :
    (levelSpec spec level).min.toNat = max 2 spec.min.toNat ∧
      (levelSpec spec level).max.toNat = max 2 spec.max.toNat := by
  obtain ⟨-, hmax, -⟩ := validate_eq_ok hvalid
  have htwo : (2 : UInt64).toNat = 2 := by decide
  have hsmall : spec.min < 2 ↔ spec.min.toNat < 2 := by rw [UInt64.lt_iff_toNat_lt, htwo]
  unfold levelSpec
  simp only [hlevel, hsmall, true_and]
  split
  · next h =>
    refine ⟨?_, ?_⟩
    · rw [htwo]
      omega
    · rw [toNat_max, htwo]
      omega
  · next h => exact ⟨by omega, by omega⟩

/-- The policy of a level, in numbers. -/
theorem levelSpec_min_le_max (hvalid : spec.validate = .ok ()) :
    (levelSpec spec level).min.toNat ≤ (levelSpec spec level).max.toNat := by
  obtain ⟨-, hmax, -⟩ := validate_eq_ok hvalid
  cases level with
  | zero => rwa [levelSpec_zero]
  | succ level =>
    obtain ⟨hmin', hmax'⟩ := levelSpec_eq hvalid (show 0 < level + 1 by omega)
    omega

theorem forced_levelSpec (spec : ChunkingSpec) (level : Nat) (c : List Observation) :
    Forced (levelSpec spec level) c ↔ Forced spec c := by
  rw [Forced, Forced, levelSpec_hardMax]

/-- The chunks of entries at a level. -/
theorem chunksOf_spec (h : chunksOf d spec level xs = .ok (closed, rest)) :
    xs = closed.flatten ++ rest ∧ (∀ c ∈ closed, Ended (levelSpec spec level) c) ∧
      ∀ q, q <+: rest → LeftOpen (levelSpec spec level) q := by
  obtain ⟨b, hnew, hrun⟩ := of_bind h
  obtain ⟨_, hvalid, -⟩ := of_bind hnew
  exact chunksFrom_spec (levelSpec_min_le_max hvalid) (new_counts hnew)
    (fun q hq => .inl (prefix_nil.mp hq)) hrun

/-! ### When the bounds are kept -/

/-- The policies that keep the bounds at a level: on leaves all do; above, those that count entries
with a maximum above one, and those that count encoded bytes with a cap so low that it forces every
end. -/
def BoundsHold (spec : ChunkingSpec) (level : Nat) : Prop :=
  level = 0 ∨ (spec.measure = .entryCount ∧ 1 < spec.max.toNat) ∨
    (spec.measure = .encodedBytes ∧ spec.hardMaxNodeBytes.toNat ≤ max 2 spec.min.toNat ∧
      (1 < spec.max.toNat ∨ spec.hardMaxNodeBytes.toNat = 1))

/-- A chunk that is left open is below the maximum. -/
theorem BoundsHold.max (hvalid : spec.validate = .ok ()) (h : BoundsHold spec level)
    {q : List Observation} (hq : LeftOpen (levelSpec spec level) q) :
    chunkSize spec.measure q < spec.max.toNat := by
  obtain ⟨hmin, hmax, -⟩ := validate_eq_ok hvalid
  rcases hq with rfl | ⟨hforced, hlt⟩
  · have hzero : chunkSize spec.measure [] = 0 := by cases spec.measure <;> rfl
    omega
  · rw [levelSpec_measure] at hlt
    cases level with
    | zero => rwa [levelSpec_zero] at hlt
    | succ level =>
      rw [(levelSpec_eq hvalid (Nat.succ_pos level)).2] at hlt
      rcases h with h | ⟨-, hone⟩ | ⟨hencoded, -, hone | hcap⟩
      · cases h
      · omega
      · omega
      · rw [forced_levelSpec, Forced, hcap] at hforced
        rw [hencoded]
        omega

/-- Above the leaf level a single entry does not end a chunk that the cap does not force. -/
theorem BoundsHold.single (hvalid : spec.validate = .ok ()) (h : BoundsHold spec level)
    (hlevel : 0 < level) {c : List Observation} (hc : Ended (levelSpec spec level) c)
    (hlen : c.length = 1) : Forced spec c := by
  by_contra hforced
  have hreached := hc.reached.resolve_left (by rwa [forced_levelSpec])
  rw [levelSpec_measure, (levelSpec_eq hvalid hlevel).1] at hreached
  rcases h with h | ⟨hentries, -⟩ | ⟨hencoded, hcap, -⟩
  · omega
  · rw [hentries] at hreached
    simp only [chunkSize] at hreached
    omega
  · rw [hencoded] at hreached
    unfold Forced at hforced
    omega

theorem BoundsHold.keepsBounds (hvalid : spec.validate = .ok ()) (h : BoundsHold spec level)
    (d : Digests) : KeepsBounds d spec level := by
  intro xs closed rest hrun
  obtain ⟨hflat, hended, hrest⟩ := chunksOf_spec hrun
  obtain ⟨-, hmax, -⟩ := validate_eq_ok hvalid
  have hminimum : spec.min.toNat ≤ (levelSpec spec level).min.toNat := by
    cases level with
    | zero => rw [levelSpec_zero]
    | succ level =>
      rw [(levelSpec_eq hvalid (Nat.succ_pos level)).1]
      omega
  have hsingle : 0 < level → ∀ c ∈ closed, c.length = 1 → Forced spec c :=
    fun hlevel c hc hlen => h.single hvalid hlevel (hended c hc) hlen
  refine ⟨fun c hc => ?_, fun c hc q hq hne => ?_, fun q hq => ?_, ?_, ?_⟩
  · rcases (hended c hc).reached with hforced | hreached
    · exact .inr ((forced_levelSpec ..).mp hforced)
    · rw [levelSpec_measure] at hreached
      exact .inl (hminimum.trans hreached)
  · exact h.max hvalid ((hended c hc).before q hq hne)
  · exact h.max hvalid (hrest q hq)
  · intro hlevel pre c post hsplit _ hlen
    exact hsingle hlevel c (by simp [hsplit]) hlen
  · intro hlevel hunforced
    rw [hflat]
    refine two_mul_nodeCount_le (fun c hc => (hended c hc).nonempty) fun pre c post hsplit _ => ?_
    have hc : c ∈ closed := by simp [hsplit]
    have hpos : 0 < c.length := length_pos_iff.mpr (hended c hc).nonempty
    by_contra hshort
    exact hunforced c hc (hsingle hlevel c hc (by omega))

/-! ### When they are not -/

theorem observe_ok (h : ¬ (b.entries = 0 ∧ b.spec.hardMaxNodeBytes.toNat < x.encodedBytes)) :
    ∃ boundary b', b.observe d x.key x.value x.encodedBytes = .ok (boundary, b') := by
  rw [BoundaryDetector.observe, if_neg h]
  dsimp only
  split
  all_goals split
  all_goals exact ⟨_, _, rfl⟩

/-- An entry that leaves its chunk below the minimum and the cap does not end it. -/
theorem Counts.observe_open (h : Counts spec seed b current)
    (hvalid : spec.min.toNat ≤ spec.max.toNat) (hforced : ¬ Forced spec (current ++ [x]))
    (hmin : chunkSize spec.measure (current ++ [x]) < spec.min.toNat) :
    ∃ b', b.observe d x.key x.value x.encodedBytes = .ok (false, b') ∧
      Counts spec seed b' (current ++ [x]) := by
  have hsmall : x.encodedBytes < spec.hardMaxNodeBytes.toNat := by
    unfold Forced at hforced
    rw [chunkSize_append] at hforced
    simp only [chunkSize, map_cons, map_nil, sum_cons, sum_nil] at hforced
    omega
  obtain ⟨boundary, b', hobserve⟩ := observe_ok (d := d) (b := b) (x := x) (by
    rw [h.spec]
    omega)
  obtain ⟨hclosed, hleft⟩ := h.observe hvalid hobserve
  cases boundary with
  | true =>
    rcases (hclosed rfl).1 with hforced' | hreached
    · exact absurd hforced' hforced
    · omega
  | false => exact ⟨b', hobserve, (hleft rfl).2.2⟩

/-- Digests for which every boundary rule fires. -/
def zeroDigests : Digests := ⟨fun _ => .filled 0, fun _ _ => 0⟩

theorem rotateLeft_zero_left (n : Nat) : rotateLeft 0 n = 0 :=
  congrArg UInt64.ofBitVec (BitVec.zero_rotateLeft n)

theorem rollByte_zeroDigests (h : b.rollingHash = 0) (byte : UInt8) :
    (b.rollByte zeroDigests capacity byte).rollingHash = 0 := by
  have hbyte : ∀ byte, byteHash zeroDigests b.seed byte = 0 := fun _ => rfl
  unfold rollByte
  simp only [h, hbyte, rotateLeft_zero_left]
  split
  · rfl
  · split <;> rfl

/-- The counted entry, its bytes rolled: the hash stays zero. -/
theorem observeRolling_zeroDigests (h : b.rollingHash = 0) (key value : Bytes) :
    (b.observeRolling zeroDigests capacity key value).rollingHash = 0 := by
  have hfold : ∀ (bytes : Bytes) (b : BoundaryDetector), b.rollingHash = 0 →
      (bytes.foldl (rollByte zeroDigests capacity) b).rollingHash = 0 := by
    intro bytes
    induction bytes with
    | nil => exact fun _ h => h
    | cons byte bytes ih => exact fun b h => ih _ (rollByte_zeroDigests capacity h byte)
  exact hfold _ b h

/-- With zero digests an entry ends its chunk as soon as the minimum is reached. -/
theorem Counts.observe_closes (h : Counts spec seed b current) (hzero : b.rollingHash = 0)
    (hrule : ∀ shape, spec.rule = .weibull shape → shape = 1 ∨ shape = 2)
    (hsize : x.encodedBytes ≤ spec.hardMaxNodeBytes.toNat)
    (hmin : spec.min.toNat ≤ chunkSize spec.measure (current ++ [x])) :
    ∃ b', b.observe zeroDigests x.key x.value x.encodedBytes = .ok (true, b') ∧
      Counts spec seed b' [] := by
  have hcloses : ∀ o, (b.count x.key x.value x.encodedBytes).SameCounters o → o.rollingHash = 0 →
      (.ok (if o.closes zeroDigests x.key x.value then (true, o.reset) else (false, o)) :
        Result _) =
        .ok (true, o.reset) ∧ Counts spec seed o.reset [] := by
    intro o hsame hhash
    have hcounts := (h.count x).congr hsame
    refine ⟨?_, hcounts.reset⟩
    rw [if_pos ((hcounts.closes x.key x.value).mpr (.inr (.inr ⟨hmin, ?_⟩)))]
    cases hr : spec.rule with
    | hashThreshold factor =>
      have hhash : hashEntry zeroDigests seed spec.input x.key x.value = 0 := by
        cases spec.input <;> rfl
      simp [hashWithinThreshold, hhash]
    | weibull shape =>
      have hhash : hashEntry zeroDigests seed spec.input x.key x.value = 0 := by
        cases spec.input <;> rfl
      rcases hrule shape hr with rfl | rfl <;> simp [weibullBoundary, hhash]
    | rollingBuzHash window =>
      dsimp only
      rw [hhash]
      exact Nat.zero_le _
  rw [BoundaryDetector.observe, if_neg (by rw [h.spec]; omega)]
  dsimp only
  split
  · exact ⟨_, hcloses _ (observeRolling_counters ..) (observeRolling_zeroDigests
      (b := b.count x.key x.value x.encodedBytes) _ hzero _ _)⟩
  · exact ⟨_, hcloses _ (.refl _) hzero⟩

theorem levelSpec_rule (spec : ChunkingSpec) (level : Nat) :
    (levelSpec spec level).rule = spec.rule := by
  unfold levelSpec
  split <;> rfl

section Valid

variable (hvalid : spec.validate = .ok ())
include hvalid

theorem weibull_shape {shape : UInt32}
    (hrule : spec.rule = .weibull shape) : shape = 1 ∨ shape = 2 := by
  unfold validate at hvalid
  rw [hrule] at hvalid
  by_contra hshape
  simp only [hshape, if_false] at hvalid
  split_ifs at hvalid

theorem new_eq_ok (level : Nat) :
    ∃ b, new spec level = .ok b ∧ b.rollingHash = 0 := by
  rw [new, hvalid, ok_bind]
  exact ⟨_, rfl, rfl⟩

/-- A single entry that does not reach the minimum is left open. -/
theorem chunksOf_open (hforced : ¬ Forced spec [x])
    (hmin : chunkSize spec.measure [x] < (levelSpec spec level).min.toNat) :
    chunksOf d spec level [x] = .ok ([], [x]) := by
  obtain ⟨b, hnew, -⟩ := new_eq_ok hvalid level
  obtain ⟨b', hobserve, -⟩ := (new_counts hnew).observe_open (d := d) (x := x)
    (levelSpec_min_le_max hvalid) (by rwa [forced_levelSpec]) (by rwa [levelSpec_measure])
  rw [chunksOf, hnew, ok_bind, chunksFrom, hobserve]
  rfl

/-- An entry that reaches the minimum, then one of no size: the first ends its chunk. -/
theorem chunksOf_closed (hsize : x.encodedBytes ≤ spec.hardMaxNodeBytes.toNat)
    (hmin : (levelSpec spec level).min.toNat ≤ chunkSize spec.measure [x])
    (hmeasure : spec.measure ≠ .entryCount) :
    chunksOf zeroDigests spec level [x, ⟨[], [], 0⟩] = .ok ([[x]], [⟨[], [], 0⟩]) := by
  obtain ⟨hpos, -, hcap⟩ := validate_eq_ok hvalid
  obtain ⟨b, hnew, hzero⟩ := new_eq_ok hvalid level
  obtain ⟨b1, hfirst, hcounts⟩ := (new_counts hnew).observe_closes (x := x) hzero
    (fun shape hrule => weibull_shape hvalid (levelSpec_rule spec level ▸ hrule))
    (by rwa [levelSpec_hardMax]) (by rwa [levelSpec_measure])
  have hnone : chunkSize spec.measure [⟨[], [], 0⟩] = 0 := by
    cases h : spec.measure with
    | entryCount => exact absurd h hmeasure
    | logicalBytes => rfl
    | encodedBytes => rfl
  have hlevelMin : 0 < (levelSpec spec level).min.toNat := by
    cases level with
    | zero => rwa [levelSpec_zero]
    | succ level =>
      rw [(levelSpec_eq hvalid (Nat.succ_pos level)).1]
      omega
  obtain ⟨b2, hsecond, -⟩ := hcounts.observe_open (d := zeroDigests) (x := ⟨[], [], 0⟩)
    (levelSpec_min_le_max hvalid)
    (by
      rw [forced_levelSpec, nil_append, Forced]
      exact Nat.not_le.mpr hcap)
    (by rwa [levelSpec_measure, nil_append, hnone])
  rw [chunksOf, hnew, ok_bind, chunksFrom, hfirst, ok_bind]
  dsimp only
  rw [if_pos rfl, chunksFrom, hsecond]
  rfl

/-- Above the leaf level, an entry alone reaches the maximum of one and does not end its chunk. -/
theorem not_keepsBounds_max (hlevel : 0 < level)
    (hmax : spec.max.toNat ≤ 1) (hforced : ¬ Forced spec [x])
    (hsize : chunkSize spec.measure [x] = 1) : ¬ KeepsBounds d spec level := by
  intro h
  have hopen : chunksOf d spec level [x] = .ok ([], [x]) :=
    chunksOf_open hvalid hforced (by
      rw [(levelSpec_eq hvalid hlevel).1]
      omega)
  have := (h _ _ _ hopen).max_rest [x] (prefix_refl _)
  omega

/-- Above the leaf level, an entry ends its chunk alone. -/
theorem not_keepsBounds_single (hlevel : 0 < level)
    (hmeasure : spec.measure ≠ .entryCount) (hforced : ¬ Forced spec [x])
    (hsize : chunkSize spec.measure [x] = max 2 spec.min.toNat) :
    ¬ KeepsBounds zeroDigests spec level := by
  intro h
  have hclosed := chunksOf_closed hvalid (x := x)
    (by
      rw [Forced] at hforced
      simp only [chunkSize, map_cons, map_nil, sum_cons, sum_nil] at hforced
      omega)
    (by rw [(levelSpec_eq hvalid hlevel).1, hsize]) hmeasure
  exact hforced ((h _ _ _ hclosed).single hlevel [] [x] [] rfl (.inr (by simp)) rfl)

theorem boundsHold_of_keepsBounds (h : ∀ d, KeepsBounds d spec level) : BoundsHold spec level := by
  obtain ⟨hmin, hmax, hcap⟩ := validate_eq_ok hvalid
  by_contra hnot
  unfold BoundsHold at hnot
  simp only [not_or, not_and] at hnot
  obtain ⟨hlevel, hentries, hencoded⟩ := hnot
  have hlevel : 0 < level := by omega
  cases hmeasure : spec.measure with
  | entryCount =>
    refine not_keepsBounds_max hvalid hlevel (not_lt.mp (hentries hmeasure)) (x := ⟨[], [], 0⟩) ?_
      ?_ (h zeroDigests)
    · exact Nat.not_le.mpr hcap
    · rw [hmeasure]
      rfl
  | logicalBytes =>
    refine not_keepsBounds_single hvalid hlevel (by simp [hmeasure])
      (x := ⟨List.replicate (max 2 spec.min.toNat) 0, [], 0⟩) ?_ ?_ (h zeroDigests)
    · exact Nat.not_le.mpr hcap
    · rw [hmeasure]
      simp [chunkSize]
  | encodedBytes =>
    have hencoded := hencoded hmeasure
    by_cases hlow : spec.hardMaxNodeBytes.toNat ≤ max 2 spec.min.toNat
    · obtain ⟨hone, hhard⟩ := hencoded hlow
      refine not_keepsBounds_max hvalid hlevel (not_lt.mp hone) (x := ⟨[], [], 1⟩) ?_ ?_
        (h zeroDigests)
      · rw [Forced]
        simp only [chunkSize, map_cons, map_nil, sum_cons, sum_nil]
        omega
      · rw [hmeasure]
        rfl
    · refine not_keepsBounds_single hvalid hlevel (by simp [hmeasure])
        (x := ⟨[], [], max 2 spec.min.toNat⟩) ?_ ?_ (h zeroDigests)
      · rw [Forced]
        simp only [chunkSize, map_cons, map_nil, sum_cons, sum_nil]
        omega
      · rw [hmeasure]
        simp [chunkSize]

end Valid

/-- The policies whose chunks keep the bounds at a level, whatever the entries and their hashes. -/
theorem chunkBounds_iff {level : Nat} (hvalid : spec.validate = .ok ()) :
    (∀ d, KeepsBounds d spec level) ↔ BoundsHold spec level :=
  ⟨boundsHold_of_keepsBounds hvalid, fun h d => h.keepsBounds hvalid d⟩

/-- Entries counted with bounds 2, 4 and 16. -/
def countingSpec : ChunkingSpec := { min := 2, target := 4, max := 16 }

theorem chunkBounds_counting :
    countingSpec.validate = .ok () ∧ ∀ d, KeepsBounds d countingSpec 1 :=
  ⟨rfl, (chunkBounds_iff rfl).mpr (.inr (.inl ⟨rfl, by decide⟩))⟩

/-- Logical bytes counted with bounds 2, 4 and 16. -/
def byteSpec : ChunkingSpec := { countingSpec with measure := .logicalBytes }

/-- A child reference as a parent level observes it: the child's first key and its identifier. -/
def childReference (firstKey : UInt8) : Observation := ⟨[firstKey], List.replicate 32 0, 40⟩

/-- Three children give three nodes with one child each. -/
theorem chunkBounds_fail :
    byteSpec.validate = .ok () ∧
      chunksOf zeroDigests byteSpec 1 [childReference 1, childReference 2, childReference 3] =
        .ok ([[childReference 1], [childReference 2], [childReference 3]], []) ∧
      ¬ KeepsBounds zeroDigests byteSpec 1 := by
  have hrun : chunksOf zeroDigests byteSpec 1
      [childReference 1, childReference 2, childReference 3] =
        .ok ([[childReference 1], [childReference 2], [childReference 3]], []) := by
    decide +kernel
  refine ⟨rfl, hrun, fun h => ?_⟩
  have hforced := (h _ _ _ hrun).single (by decide) [] [childReference 1]
    [[childReference 2], [childReference 3]] rfl (.inl (by simp)) rfl
  exact absurd hforced (by decide)

/-! ### The probe without a state -/

/-- The detector and its open chunk after more entries. -/
def feed (d : Digests) : BoundaryDetector → List Observation → List Observation →
    Result (BoundaryDetector × List Observation)
  | b, current, [] => .ok (b, current)
  | b, current, x :: xs => do
      let (boundary, b) ← b.observe d x.key x.value x.encodedBytes
      feed d b (if boundary then [] else current ++ [x]) xs

theorem Counts.feed (hvalid : spec.min.toNat ≤ spec.max.toNat) (h : Counts spec seed b current)
    (hfeed : feed d b current xs = .ok (b', rest)) : Counts spec seed b' rest := by
  induction xs generalizing b current with
  | nil =>
    cases hfeed
    exact h
  | cons x xs ih =>
    obtain ⟨⟨boundary, b1⟩, hobserve, hfeed⟩ := of_bind hfeed
    obtain ⟨hclosed, hleft⟩ := h.observe hvalid hobserve
    cases boundary with
    | true => exact ih (hclosed rfl).2 hfeed
    | false => exact ih (hleft rfl).2.2 hfeed

theorem levelSeed_levelSpec (spec : ChunkingSpec) (level : Nat) :
    levelSeed (levelSpec spec level) level = levelSeed spec level := by
  unfold levelSpec
  split <;> rfl

theorem levelSpec_input (spec : ChunkingSpec) (level : Nat) :
    (levelSpec spec level).input = spec.input := by
  unfold levelSpec
  split <;> rfl

/-- The hash of a key alone lets a chunk end. -/
def keyFires (d : Digests) (spec : ChunkingSpec) (level : Nat) (factor : UInt32) (key : Bytes) :
    Bool :=
  hashWithinThreshold (hashEntry d (levelSeed spec level) .key key []) factor

/-- What the detector answers where the cap is not reached. -/
theorem boundary_iff {b0 : BoundaryDetector} (hrule : spec.rule = .hashThreshold factor)
    (hmeasure : spec.measure = .entryCount) (hinput : spec.input = .key)
    (hnew : new spec level = .ok b0) (hfeed : feed d b0 [] xs = .ok (b, current))
    (hobserve : b.observe d x.key x.value x.encodedBytes = .ok (boundary, b'))
    (hforced : ¬ Forced spec (current ++ [x])) :
    boundary = true ↔ (levelSpec spec level).max.toNat ≤ current.length + 1 ∨
      ((levelSpec spec level).min.toNat ≤ current.length + 1 ∧
        keyFires d spec level factor x.key = true) := by
  obtain ⟨_, hvalid, -⟩ := of_bind hnew
  have hcounts := (new_counts hnew).feed (levelSpec_min_le_max hvalid) hfeed
  obtain ⟨o, hsame, rfl, -⟩ := observe_eq_ok hobserve
  have hsize : chunkSize (levelSpec spec level).measure (current ++ [x]) = current.length + 1 := by
    rw [levelSpec_measure, hmeasure]
    simp [chunkSize]
  have hkey : hashEntry d (levelSeed spec level) .key x.key x.value =
      hashEntry d (levelSeed spec level) .key x.key [] := rfl
  rw [((hcounts.count x).congr hsame).closes x.key x.value, hsize, levelSpec_rule, hrule,
    forced_levelSpec, levelSeed_levelSpec, levelSpec_input, hinput, hkey, keyFires]
  simp only [hforced, false_or]

theorem entryCountBoundary_eq (hvalid : spec.validate = .ok ())
    (hrule : spec.rule = .hashThreshold factor) (hmeasure : spec.measure = .entryCount)
    (hinput : spec.input = .key) (count : Nat) (key : Bytes) :
    entryCountBoundary d spec level count key =
      .ok (decide (spec.max.toNat ≤ count ∨
        (spec.min.toNat ≤ count ∧ keyFires d spec level factor key = true))) := by
  rw [entryCountBoundary, hvalid, ok_bind, hrule, hmeasure, hinput]
  dsimp only
  rw [if_neg (by simp)]
  split
  · next hmax => simp [hmax]
  · next hmax =>
    split
    · next hmin => simp [hmax, Nat.not_le.mpr hmin]
    · next hmin => simp [hmax, Nat.not_lt.mp hmin, keyFires]

/-- The probe answers as the detector does, except for the first entry of a chunk above the leaf
level when the minimum is one: there the detector keeps the chunk open. -/
theorem entryCountBoundary_iff {factor : UInt32} {level : Nat} {xs : List Observation}
    {b0 : BoundaryDetector} (hrule : spec.rule = .hashThreshold factor)
    (hmeasure : spec.measure = .entryCount) (hinput : spec.input = .key)
    (hnew : new spec level = .ok b0) (hfeed : feed d b0 [] xs = .ok (b, current))
    (hobserve : b.observe d x.key x.value x.encodedBytes = .ok (boundary, b'))
    (hforced : ¬ Forced spec (current ++ [x])) :
    entryCountBoundary d spec level (current.length + 1) x.key = .ok boundary ↔
      level = 0 ∨ 1 < spec.min.toNat ∨ current ≠ [] ∨
        (1 < spec.max.toNat ∧ keyFires d spec level factor x.key = false) := by
  obtain ⟨_, hvalid, -⟩ := of_bind hnew
  obtain ⟨hmin, hmax, -⟩ := validate_eq_ok hvalid
  have hboundary := boundary_iff hrule hmeasure hinput hnew hfeed hobserve hforced
  have hanswer : entryCountBoundary d spec level (current.length + 1) x.key = .ok boundary ↔
      (boundary = true ↔ (spec.max.toNat ≤ current.length + 1 ∨
        (spec.min.toNat ≤ current.length + 1 ∧ keyFires d spec level factor x.key = true))) := by
    rw [entryCountBoundary_eq hvalid hrule hmeasure hinput, Except.ok.injEq]
    cases boundary <;> simp
  rw [hanswer, hboundary]
  have hempty : current ≠ [] ↔ 0 < current.length := length_pos_iff.symm
  rw [hempty]
  cases level with
  | zero => simp [levelSpec_zero]
  | succ level =>
    obtain ⟨hmin', hmax'⟩ := levelSpec_eq hvalid (Nat.succ_pos level)
    rw [hmin', hmax']
    cases keyFires d spec (level + 1) factor x.key <;> simp <;> omega

theorem entryCountBoundary_counting :
    ∃ b b', new countingSpec 1 = .ok b ∧
      b.observe zeroDigests [1] [2] 8 = .ok (false, b') ∧
      entryCountBoundary zeroDigests countingSpec 1 1 [1] = .ok false := by
  refine ⟨_, _, rfl, rfl, ?_⟩
  have hfeed : ∀ b, feed zeroDigests b [] [] = .ok (b, []) := fun _ => rfl
  exact (entryCountBoundary_iff (x := ⟨[1], [2], 8⟩) rfl rfl rfl rfl (hfeed _) rfl
    (by decide)).mpr (.inr (.inl (by decide)))

/-- With a minimum of one, a parent's first child ends a chunk for the probe and not for the
detector. -/
theorem entryCountBoundary_differs :
    ∃ b b', new { min := 1, target := 2, max := 16 } 1 = .ok b ∧
      b.observe zeroDigests [1] [2] 8 = .ok (false, b') ∧
      entryCountBoundary zeroDigests { min := 1, target := 2, max := 16 } 1 1 [1] = .ok true :=
  ⟨_, _, rfl, rfl, rfl⟩

end BoundaryDetector

end Prolly

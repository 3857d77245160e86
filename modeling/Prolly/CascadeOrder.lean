import Prolly.Builder
import Prolly.Fixture

/-!
# Prolly.CascadeOrder

When the cascade of a `SortedBatchBuilder` keeps the order of what it is given.

A push of a child emits two nodes where the child does not fit the current node and
closes the next one alone. A level that counts entries closes no node of one entry, so
there this never happens (`buildsInOrder_of_entryCount`). A level that counts bytes may:
`Reversed` is a format with four entries of which the builder loses one.
-/

namespace Prolly

open SortedAssoc (Sorted)

/-! ### Levels that count entries -/

/-- A parent level that counts entries, at least two to a node. -/
structure LevelEmitter.CountsEntries (e : LevelEmitter) : Prop where
  sizer : e.sizer = none
  measure : e.detector.spec.measure = .entryCount
  min : 2 ≤ e.detector.spec.min.toNat
  max : 2 ≤ e.detector.spec.max.toNat
  hardMax : 0 < e.detector.spec.hardMaxNodeBytes.toNat

section CountsEntries

variable {d : Digests} {format : TreeFormat} {e e' : LevelEmitter}

theorem LevelEmitter.new_countsEntries {leaf : Bool} {level : Nat}
    (hmeasure : format.chunking.measure = .entryCount) (hlevel : 0 < level)
    (h : LevelEmitter.new format leaf level = .ok e) : e.CountsEntries := by
  unfold LevelEmitter.new at h
  split at h
  · cases h
  obtain ⟨_, hvalid, h⟩ := of_bind h
  split at h
  · cases h
  obtain ⟨sizer, hsizer, h⟩ := of_bind h
  obtain ⟨detector, hdetector, h⟩ := of_bind h
  cases h
  obtain ⟨_, hspec, hdetector⟩ := of_bind hdetector
  cases hdetector
  obtain ⟨hmin, hmax⟩ := BoundaryDetector.levelSpec_bounds hspec hlevel
  refine ⟨?_, ?_, (Nat.le_max_left ..).trans hmin, (Nat.le_max_left ..).trans hmax, ?_⟩
  · simpa [LevelEmitter.newSizer, hmeasure, eq_comm] using hsizer
  · exact (BoundaryDetector.levelSpec_measure ..).trans hmeasure
  · rw [BoundaryDetector.levelSpec_hardMax]
    exact (ChunkingSpec.validate_eq_ok hspec).2.2

namespace LevelEmitter

theorem flushCurrent_keeps {emitted : Option EmittedNode}
    (h : e.flushCurrent d = .ok (emitted, e')) :
    emitted.toList.length ≤ 1 ∧ (e.sizer = none → e'.sizer = none) ∧ e'.detector = e.detector := by
  refine ⟨by cases emitted <;> simp, ?_⟩
  unfold flushCurrent at h
  split at h
  · cases h
    exact ⟨id, rfl⟩
  · split at h
    · cases h
    · cases h
      exact ⟨fun hs => by simp [cleared, hs], rfl⟩

/-- Making room flushes at most one node, and the detector starts afresh if it does. -/
theorem fitUpper_cases {key value : Bytes} {childCount : Option Nat} {flushed : List EmittedNode}
    {n : Nat} (h : e.fitUpper d key value childCount = .ok (flushed, e', n)) :
    n = 0 ∧ (e.sizer = none → e'.sizer = none) ∧
      (flushed = [] ∧ e'.detector = e.detector ∨
        flushed.length ≤ 1 ∧ e'.detector = e.detector.reset) := by
  obtain ⟨upper, -, h⟩ := of_bind h
  split at h
  · cases h
    exact ⟨rfl, id, .inl ⟨rfl, rfl⟩⟩
  obtain ⟨size, -, h⟩ := of_bind h
  obtain ⟨⟨flushed', e1, size'⟩, hroom, h⟩ := of_bind h
  dsimp only at h
  split at h
  · cases h
  cases h
  unfold roomUpper at hroom
  split at hroom
  · obtain ⟨⟨_, e2⟩, hflush, hroom⟩ := of_bind hroom
    obtain ⟨_, -, hroom⟩ := of_bind hroom
    cases hroom
    obtain ⟨⟨emitted, e3⟩, hcurrent, hflush⟩ := of_bind hflush
    cases hflush
    obtain ⟨hlen, hsizer, hdetector⟩ := flushCurrent_keeps hcurrent
    exact ⟨rfl, hsizer, .inr ⟨hlen, congrArg BoundaryDetector.reset hdetector⟩⟩
  · cases hroom
    exact ⟨rfl, id, .inl ⟨rfl, rfl⟩⟩

/-- A push to a level that counts entries emits at most one node. -/
theorem CountsEntries.pushEntry {key value : Bytes} {childCount : Option Nat}
    {out : List EmittedNode} (he : e.CountsEntries)
    (h : e.pushEntry d key value childCount = .ok (out, e')) :
    e'.CountsEntries ∧ out.length ≤ 1 := by
  obtain ⟨⟨flushed, e1, n⟩, hfit, h⟩ := of_bind h
  obtain ⟨⟨emitted, e2⟩, htake, h⟩ := of_bind h
  cases h
  obtain ⟨⟨boundary, detector⟩, hobserve, htake⟩ := of_bind htake
  rw [fit, he.sizer] at hfit
  obtain ⟨hn, hsizer, hcases⟩ := fitUpper_cases hfit
  rw [hn] at hobserve
  have hspec : e1.detector.spec = e.detector.spec := by
    rcases hcases with ⟨-, heq⟩ | ⟨-, heq⟩
    · rw [heq]
    · rw [heq, BoundaryDetector.reset]
  have hdetector := (BoundaryDetector.observe_spec hobserve).trans hspec
  have hcounts : ∀ e2 : LevelEmitter, e2.sizer = none → e2.detector.spec = e.detector.spec →
      e2.CountsEntries := fun e2 hs hd =>
    ⟨hs, hd ▸ he.measure, hd ▸ he.min, hd ▸ he.max, hd ▸ he.hardMax⟩
  dsimp only at htake
  split at htake
  · next hboundary =>
    obtain ⟨⟨last, e3⟩, hflush, htake⟩ := of_bind htake
    cases htake
    obtain ⟨hlen, hkeeps, heq3⟩ := flushCurrent_keeps hflush
    have he3 := hcounts e3 (hkeeps (hsizer he.sizer)) (heq3 ▸ hdetector)
    rcases hcases with ⟨rfl, -⟩ | ⟨-, heq⟩
    · exact ⟨he3, hlen⟩
    · -- After a flush the entry is the only one, which is below the minimum.
      obtain ⟨o, hcounters, hcloses, -⟩ := BoundaryDetector.observe_eq_ok hobserve
      rw [heq] at hcounters
      have hmeasure : o.measure = 1 := by
        rw [hcounters.measure]
        simp [BoundaryDetector.measure, BoundaryDetector.count, BoundaryDetector.reset, he.measure,
          saturatingAdd, u64Max]
      have hspec' : o.spec = e.detector.spec := hcounters.spec
      have hopen : o.closes d key value = false := by
        refine BoundaryDetector.closes_eq_false ?_ ?_ ?_
        · rw [hcounters.encodedBytes, hspec']
          exact he.hardMax
        · rw [hmeasure, hspec']
          exact he.max
        · rw [hmeasure, hspec']
          exact he.min
      rw [hcloses, hopen] at hboundary
      cases hboundary
  · cases htake
    refine ⟨hcounts _ (hsizer he.sizer) hdetector, ?_⟩
    rcases hcases with ⟨rfl, -⟩ | ⟨hlen, -⟩
    · simp
    · simpa using hlen

end LevelEmitter

/-- While entries are counted, no push of a child emits two nodes. -/
theorem buildInvariant_entryCount (hmeasure : format.chunking.measure = .entryCount) :
    BuildInvariant lastFirst oneAtATime d format (fun level e => 0 < level → e.CountsEntries)
      fun _ => True where
  new h hlevel := LevelEmitter.new_countsEntries hmeasure hlevel h
  pushLeaf _ _ := ⟨fun h => absurd h (lt_irrefl 0), fun _ _ => trivial⟩
  pushChild := by
    intro level e child out e' he h
    unfold LevelEmitter.pushChild at h
    split at h
    · cases h
    · obtain ⟨he', hlen⟩ := (he (Nat.succ_pos level)).pushEntry h
      refine ⟨fun _ => he', fun _ _ => trivial, fun arranged harranged => ?_⟩
      rw [lastFirst_of_length_le hlen] at harranged
      cases harranged
      exact ⟨oneAtATime_eq_ok.mpr ⟨hlen, rfl⟩, List.Subset.refl _⟩
  finish _ _ _ _ := trivial
  nothing arranged h := ⟨h, by cases h; simp⟩

/-- A builder that counts entries keeps their order. -/
theorem buildsInOrder_of_entryCount {es : List Entry} {r : Option Cid × List EmittedNode}
    (hmeasure : format.chunking.measure = .entryCount) (hs : Sorted es)
    (h : buildSorted d format es = .ok r) :
    BuildsInOrder d format es := by
  have hone := ((buildInvariant_entryCount hmeasure).build hs h).1
  simp [BuildsInOrder, hone, Except.isOk, Except.toBool]

end CountsEntries

/-! ### A format that loses an entry

Leaves hold one entry each. At the first parent level `cc` waits alone; `ddd` does not
fit behind it and fills a node by itself, so that both are emitted at once and `ddd`
goes up before `cc`. -/

namespace Reversed

/-- Chunks of 35 logical bytes, nodes of at most 139 bytes. -/
def format : TreeFormat where
  chunking :=
    { measure := .logicalBytes, min := 35, target := 35, max := 35, hardMaxNodeBytes := 139 }
  nodeLayout := .plain

def ones (n : Nat) : Bytes := List.replicate n 49

def u : Entry := ([65], ones 34)
def a : Entry := ([97], ones 34)
def b : Entry := ([98], ones 34)
def c : Entry := ([99, 99], ones 33)
def d : Entry := ([100, 100, 100], ones 32)

/-- A digest written as a number. -/
def ofNat (n : Nat) : Cid := ⟨beBytes 32 n, PrefixCode.bigEndian_length 32 n⟩

def leaf (entry : Entry) : Node := Node.ofRows format true 0 [LevelEmitter.entryRow entry]

/-- The parent of the nodes named by their identifiers, first keys and counts. -/
def parent (level : Nat) (children : List (Cid × Entry × Nat)) : Node :=
  Node.ofRows format false level
    (children.map fun child => LevelEmitter.childRow ⟨child.1, child.2.1.1, child.2.2⟩)

def uCid : Cid := ofNat 0xc3047eb0bbc10acec93e667a4d2f3633e16fca8ff0ff6eab0ad99632de92f640
def aCid : Cid := ofNat 0x30d2f1845c2bd1dcd46de6c1dea1e8b964b476df76e3b271784ecb741f5b5654
def bCid : Cid := ofNat 0x7efcdbfbd4a6df53ae987c24ac7e8959376808ebaf2bc80306e656edbb30b26c
def cCid : Cid := ofNat 0xd06cb050e893989c09aa3a4bc0e7c4203ff955f9658a0062af16329e5b369cea
def dCid : Cid := ofNat 0x4a1b6af26109cbf4db483004b222cb0f24cba24c9a1f9d69101d35b3025dd399
def uaCid : Cid := ofNat 0x4f702cca31819cda98e848c536fa73659091ee5435ac7e28c684d44f26c06247
def bcCid : Cid := ofNat 0xdd474d90ea6afff51ece0b1096b8aba620803f104a20ec15d9f60498e3f59977
def d1Cid : Cid := ofNat 0x1916bf1bea2c2c92caf9987df73644447cbc32d6eabe2c9b2343d80aed1de878
def ucCid : Cid := ofNat 0x5d7939278baffb3240856f6657107f4362541fcf2762716c3bc72ff61d531364
def d2Cid : Cid := ofNat 0x46e3103eda284fe314e3c2bb1a835b04fb91e935a9117392c68a92669d8cb0d8
def udCid : Cid := ofNat 0x60b1900279e273da388edda41d8a2f7bcfa1f275dac6a9d067f73b7ff44420ab
def abCid : Cid := ofNat 0x868d394852a7dacceceb26a097820569621202a3936c33e17c3f0ce19e84935e
def c1Cid : Cid := ofNat 0xdd9b6e516056d6140f78341fdaefa11f4a050bdfb9149fc2f24d9809e069c5a1
def abdCid : Cid := ofNat 0x6815ef177e701ce14f0c63033822a4b4342c17a3c10bc998898ea27e1ca89701
def c2Cid : Cid := ofNat 0x74fb2aec4872779ce8ef9b91405512a836b4dc5260415ee292a1c7b6440e8e8a
def abdcCid : Cid := ofNat 0xf9fd1d4737b8f281023672b45c1cbf2520acd9f47f271ca183fa390e29f92d87
def abcCid : Cid := ofNat 0x04035c3dcd953035d1c50001a64cc8c643e7e16b22b1808212a2c099d7cd2b3a
def abcdCid : Cid := ofNat 0x8d115655d5c47a76848642cacfde085ae53a287ddfb18950fd26cea23dbc5224

/-- The nodes of the trees over `u, a, b, c, d` and over `a, b, c, d`, the latter with its
children in either order. -/
def table : Table := [
  (leaf u, uCid), (leaf a, aCid), (leaf b, bCid), (leaf c, cCid), (leaf d, dCid),
  (parent 1 [(uCid, u, 1), (aCid, a, 1)], uaCid), (parent 1 [(bCid, b, 1), (cCid, c, 1)], bcCid),
  (parent 1 [(dCid, d, 1)], d1Cid), (parent 2 [(uaCid, u, 2), (bcCid, b, 2)], ucCid),
  (parent 2 [(d1Cid, d, 1)], d2Cid), (parent 3 [(ucCid, u, 4), (d2Cid, d, 1)], udCid),
  (parent 1 [(aCid, a, 1), (bCid, b, 1)], abCid), (parent 1 [(cCid, c, 1)], c1Cid),
  (parent 2 [(abCid, a, 2), (d1Cid, d, 1)], abdCid), (parent 2 [(c1Cid, c, 1)], c2Cid),
  (parent 3 [(abdCid, a, 3), (c2Cid, c, 1)], abdcCid),
  (parent 2 [(abCid, a, 2), (c1Cid, c, 1)], abcCid),
  (parent 3 [(abcCid, a, 3), (d2Cid, d, 1)], abcdCid)]

/-- SHA-256 on the encodings of these nodes, which differ in their level, the first byte of their
first key or their length. -/
def digests : Digests where
  sha256 bytes :=
    match (bytes.getD 63 0).toNat, (bytes.getD 66 0).toNat, bytes.length with
    | 0, 65, _ => uCid
    | 0, 97, _ => aCid
    | 0, 98, _ => bCid
    | 0, 99, _ => cCid
    | 0, _, _ => dCid
    | 1, 65, _ => uaCid
    | 1, 97, _ => abCid
    | 1, 98, _ => bcCid
    | 1, 99, _ => c1Cid
    | 1, _, _ => d1Cid
    | 2, 65, _ => ucCid
    | 2, 97, 138 => abcCid
    | 2, 97, _ => abdCid
    | 2, 99, _ => c2Cid
    | 2, _, _ => d2Cid
    | _, 65, _ => udCid
    | _, _, 138 => abdcCid
    | _, _, _ => abcdCid
  xxh64 _ _ := 0

/-- The store with all these nodes. -/
def manager : Manager := table.manager digests format

/-- The trees over `u, a, b, c, d`, over `u, a, b, c`, over `a, b, c` and over `u, a`, and what the
builder makes of `a, b, c, d`. -/
def uabcd : Tree := ⟨some udCid, format⟩
def uabc : Tree := ⟨some ucCid, format⟩
def abc : Tree := ⟨some abcCid, format⟩
def ua : Tree := ⟨some uaCid, format⟩
def abdc : Tree := ⟨some abdcCid, format⟩

/-- The digests are those of the table, and the trees are what is built. -/
theorem evaluated : table.Proper digests format ∧ Sorted [u, a, b, c, d] ∧
    table.builds digests format oneAtATime [u, a, b, c, d] udCid = true ∧
    table.builds digests format oneAtATime [u, a, b, c] ucCid = true ∧
    table.builds digests format oneAtATime [a, b, c] abcCid = true ∧
    table.builds digests format oneAtATime [u, a] uaCid = true ∧
    table.builds digests format lastFirst [a, b, c, d] abdcCid = true := by
  decide +kernel

theorem proper : table.Proper digests format := evaluated.1

theorem sorted_uabcd : Sorted [u, a, b, c, d] := evaluated.2.1

theorem builds_uabcd : table.builds digests format oneAtATime [u, a, b, c, d] udCid = true :=
  evaluated.2.2.1

theorem sorted_uabc : Sorted [u, a, b, c] := sorted_uabcd.sublist (by simp)

theorem builds_uabc : table.builds digests format oneAtATime [u, a, b, c] ucCid = true :=
  evaluated.2.2.2.1

theorem builds_abc : table.builds digests format oneAtATime [a, b, c] abcCid = true :=
  evaluated.2.2.2.2.1

theorem holds_of_builds {entries : List Entry} {root : Cid} (hs : Sorted entries)
    (h : table.builds digests format oneAtATime entries root = true) :
    Holds manager (some root) entries := by
  obtain ⟨_, -, -, -, hholds⟩ := proper.built hs h
  exact hholds

theorem holds_uabcd : Holds manager uabcd.root [u, a, b, c, d] :=
  holds_of_builds sorted_uabcd builds_uabcd

theorem holds_uabc : Holds manager uabc.root [u, a, b, c] :=
  holds_of_builds sorted_uabc builds_uabc

theorem holds_abc : Holds manager abc.root [a, b, c] :=
  holds_of_builds sorted_uabc.tail builds_abc

theorem holds_ua : Holds manager ua.root [u, a] :=
  holds_of_builds (sorted_uabcd.sublist (by simp)) evaluated.2.2.2.2.2.1

/-- The tree with `ddd` before `cc` is what the builder makes of four entries in order, and is
stored. -/
theorem built_abdc : ∃ out, buildSorted digests format [a, b, c, d] = .ok (abdc.root, out) ∧
    ∀ n ∈ out, Stored manager n.node := by
  obtain ⟨out, hbuild, hout⟩ := Table.of_builds evaluated.2.2.2.2.2.2
  exact ⟨out, hbuild, fun n hn => proper.stored (hout n hn)⟩

end Reversed

end Prolly

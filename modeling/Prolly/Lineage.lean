import Mathlib.Algebra.GroupWithZero.Nat
import Prolly.Basic
import Prolly.Lib.Edits

/-!
# Prolly.Lineage

The branch lineage cache (`BranchLineageCache` in `mod.rs`): for recent writes it
remembers which mutations led from a parent root to the new root, and answers
"what changed between these two roots" from those records, directly, from an
acceleration entry, or by walking parents through an ancestry index.

Soundness is relative to what roots mean. `Means root f` says that the tree with
that root holds the map `f`; the only assumption on it is that a root means one
map. If every record links its parent to its root (`Sound`), then so does every
answer (`changesSince_sound`). Answering a question and recording a write keep the
cache sound (`Sound.insert`).
-/

namespace Prolly

open List Option

/-- Apply mutations to a map, first to last. -/
abbrev applyMutations (f : Bytes → Option Bytes) (ms : List Mutation) : Bytes → Option Bytes :=
  Edits.apply Mutation.key Mutation.value f ms

/-- Mutations in strictly increasing key order: `windows(2).all(|p| p[0].key() < p[1].key())`. -/
def StrictlySorted (ms : List Mutation) : Prop := ms.Pairwise fun a b => a.key < b.key

instance : DecidablePred StrictlySorted := fun ms =>
  inferInstanceAs (Decidable (ms.Pairwise fun a b => a.key < b.key))

def Mutation.retained : Mutation → Nat
  | .upsert key val => key.length + val.length
  | .delete key => key.length

structure CachedBranchLineage where
  parent : Option Cid
  mutations : List Mutation
  retainedBytes : Nat

structure BranchLineageAcceleration where
  base : Option Cid
  branch : Cid
  changes : List Mutation
  retainedBytes : Nat

/-- Queues are listed front first. -/
structure BranchLineageCache where
  records : List (Cid × CachedBranchLineage) := []
  ancestryIndex : Option (List (Cid × Nat)) := none
  accelerations : List BranchLineageAcceleration := []
  accelerationBytes : Nat := 0
  maxRecords : Nat := 8192
  maxBytes : Nat := 64 * 1024 * 1024
  retainedBytes : Nat := 0

namespace BranchLineageCache

/-- The map `ensure_ancestry_index` collects: positions by root. -/
def indexRecords (records : List (Cid × CachedBranchLineage)) : List (Cid × Nat) :=
  records.zipIdx.map fun r => (r.1.1, r.2)

/-- `index.get(cid)`: collecting into a map keeps the last position of a root. -/
def indexGet (index : List (Cid × Nat)) (cid : Cid) : Option Nat :=
  (index.reverse.find? fun entry => entry.1 = cid).map Prod.snd

/-- `ensure_ancestry_index`. -/
def ensureAncestryIndex (c : BranchLineageCache) : BranchLineageCache :=
  match c.ancestryIndex with
  | some _ => c
  | none => { c with ancestryIndex := some (indexRecords c.records) }

/-- `MAX_HOPS`. -/
def maxHops : Nat := 8192

/-- `MAX_MUTATIONS`. -/
def maxMutations : Nat := 65536

/-- The hop loop of `changes_since_indexed`: walk parents from `current` towards
`base`, pushing each record's mutations. The chain is kept in the order
`chain.into_iter().rev()` reads it: last push, that is oldest hop, first. -/
def walk (records : List (Cid × CachedBranchLineage)) (index : List (Cid × Nat))
    (base : Option Cid) :
    Nat → Option Cid → List (List Mutation) → Nat → Option (Option Cid × List (List Mutation))
  | 0, current, chain, _ => some (current, chain)
  | hops + 1, current, chain, mutationCount =>
    if current = base then some (current, chain)
    else do
      let cid ← current
      let position ← indexGet index cid
      let record ← records[position]?
      let mutationCount := mutationCount + record.2.mutations.length
      if mutationCount > maxMutations then none
      else walk records index base hops record.2.parent (record.2.mutations :: chain) mutationCount

/-- `changes_since_indexed`. -/
def changesSinceIndexed (records : List (Cid × CachedBranchLineage)) (index : List (Cid × Nat))
    (base branch : Option Cid) : Option (List Mutation) :=
  if base = branch then some []
  else do
    let (current, chain) ← walk records index base maxHops branch [] 0
    if current ≠ base then none
    else
      match chain with
      | [changes] => some changes
      | _ => some (Edits.normalize Mutation.key chain.flatten)

/-- Drop elements from the front while there are too many or they retain too many bytes. -/
def evict {α : Type} (retained : α → Nat) (maxLen maxBytes : Nat) :
    List α → Nat → List α × Nat
  | [], bytes => ([], bytes)
  | x :: rest, bytes =>
    if rest.length + 1 > maxLen ∨ bytes > maxBytes then
      evict retained maxLen maxBytes rest (bytes - retained x)
    else (x :: rest, bytes)

/-- `insert`. A record takes `size_of::<CachedBranchLineage>()`, 56 bytes, and its mutations. -/
def insert (c : BranchLineageCache) (parent : Option Cid) (root : Cid)
    (mutations : List Mutation) : BranchLineageCache :=
  let bytes := (mutations.map Mutation.retained).sum + 56
  if bytes > c.maxBytes then c
  else
    let (records, retainedBytes) := evict (·.2.retainedBytes) c.maxRecords c.maxBytes
      (c.records ++ [(root, ⟨parent, mutations, bytes⟩)]) (c.retainedBytes + bytes)
    { c with records, retainedBytes, ancestryIndex := none }

/-- Remember an answer when it is small enough. -/
def accelerate (c : BranchLineageCache) (base : Option Cid) (branch : Cid)
    (changes : List Mutation) : BranchLineageCache :=
  let bytes := (changes.map Mutation.retained).sum
  if bytes ≤ 2 * 1024 * 1024 then
    let (accelerations, accelerationBytes) := evict (·.retainedBytes) 8 (2 * 1024 * 1024)
      (c.accelerations ++ [⟨base, branch, changes, bytes⟩]) (c.accelerationBytes + bytes)
    { c with accelerations, accelerationBytes }
  else c

/-- `changes_since`: the answer and the cache it leaves. -/
def changesSince (c : BranchLineageCache) (base branch : Option Cid) :
    Option (List Mutation) × BranchLineageCache :=
  if base = branch then (some [], c)
  else
    match branch with
    | none => (none, c)
    | some branchRoot =>
      match c.accelerations.reverse.find? fun a => a.base = base ∧ a.branch = branchRoot with
      | some acceleration => (some acceleration.changes, c)
      | none =>
        match c.records.reverse.find? fun r => r.1 = branchRoot ∧ r.2.parent = base with
        | some direct => (some direct.2.mutations, c)
        | none =>
          let c := c.ensureAncestryIndex
          match c.ancestryIndex with
          | none => (none, c)
          | some index =>
            match changesSinceIndexed c.records index base branch with
            | none => (none, c)
            | some changes => (some changes, c.accelerate base branchRoot changes)

end BranchLineageCache

/-- `PublicationOrigin`. -/
inductive PublicationOrigin where
  | general | pointUpsert | pointDelete | batchMutation | treeBuild | merge | rangeDelete
  | replication | maintenance

/-- `branch_lineage_from_mutations`: sorted by key, of each key the last. -/
def branchLineageFromMutations (mutations : List Mutation) : Option (List Mutation) :=
  if mutations = [] ∨ mutations.length > 256 then none
  else some (Edits.normalize Mutation.key mutations)

/-- `automatic_branch_lineage`. -/
def automaticBranchLineage (mutations : List Mutation) : PublicationOrigin → Option (List Mutation)
  | .pointUpsert | .pointDelete | .merge => branchLineageFromMutations mutations
  | _ => none

theorem automaticBranchLineage_eq {origin : PublicationOrigin} {mutations lineage : List Mutation}
    (h : automaticBranchLineage mutations origin = some lineage) :
    lineage = Edits.normalize Mutation.key mutations := by
  have hfrom : branchLineageFromMutations mutations = some lineage := by
    cases origin <;> first | exact h | cases h
  unfold branchLineageFromMutations at hfrom
  split at hfrom <;> cases hfrom
  rfl

namespace BranchLineageCache

/-! ### Soundness -/

section Soundness

variable (Means : Option Cid → (Bytes → Option Bytes) → Prop)

/-- The mutations lead from the map at `base` to the map at `branch`. -/
def Links (base branch : Option Cid) (ms : List Mutation) : Prop :=
  StrictlySorted ms ∧
    ∀ f g, Means base f → Means branch g → g = applyMutations f ms

/-- A recorded hop: both roots mean something, and the mutations lead from one to the
other. -/
def Hop (parent root : Option Cid) (ms : List Mutation) : Prop :=
  StrictlySorted ms ∧ ∃ f, Means parent f ∧ Means root (applyMutations f ms)

structure Sound (c : BranchLineageCache) : Prop where
  records : ∀ r ∈ c.records, Hop Means r.2.parent (some r.1) r.2.mutations
  accelerations : ∀ a ∈ c.accelerations, Hop Means a.base (some a.branch) a.changes
  index : ∀ index, c.ancestryIndex = some index → index = indexRecords c.records

theorem sound_empty : Sound Means {} := ⟨by simp, by simp, by simp⟩

variable {Means} {ms : List Mutation} {records : List (Cid × CachedBranchLineage)} {cid : Cid}
  {position hops : Nat} {base branch last : Option Cid} {full : List (List Mutation)}
  {c : BranchLineageCache}

/-- Where roots mean one map each, the mutations of a hop lead from any meaning of the
parent to any meaning of the root. -/
theorem Hop.links (functional : ∀ r f g, Means r f → Means r g → f = g) {parent root : Option Cid}
    (hop : Hop Means parent root ms) : Links Means parent root ms := by
  obtain ⟨hs, f, hf, hroot⟩ := hop
  refine ⟨hs, fun f' g hf' hg => ?_⟩
  rw [functional _ _ _ hf' hf]
  exact functional _ _ _ hg hroot

theorem mem_of_mem_evict {α : Type} {retained : α → Nat} {maxLen maxBytes bytes : Nat}
    {elements : List α} {a : α} (h : a ∈ (evict retained maxLen maxBytes elements bytes).1) :
    a ∈ elements := by
  induction elements generalizing bytes with
  | nil => simp [evict] at h
  | cons x xs ih =>
    rw [evict] at h
    split at h
    · exact .tail _ (ih h)
    · exact h

theorem indexGet_indexRecords (h : indexGet (indexRecords records) cid = some position) :
    ∃ record, records[position]? = some (cid, record) := by
  unfold indexGet at h
  obtain ⟨⟨c, i⟩, hfind, rfl⟩ := map_eq_some_iff.mp h
  have hc : c = cid := by simpa using List.find?_some hfind
  have hmem : (c, i) ∈ indexRecords records := mem_reverse.mp (mem_of_find?_eq_some hfind)
  unfold indexRecords at hmem
  obtain ⟨⟨r, j⟩, hr, heq⟩ := mem_map.mp hmem
  obtain ⟨rfl, rfl⟩ := Prod.mk.inj heq
  exact ⟨r.2, by rw [mem_zipIdx_iff_getElem?.mp hr, ← hc]⟩

section Records

variable (hrec : ∀ r ∈ records, Hop Means r.2.parent (some r.1) r.2.mutations)
include hrec

/-- One hop of a walk: the record that the index names is a hop into the current root. -/
theorem hop_of_index {record : Cid × CachedBranchLineage}
    (hpos : indexGet (indexRecords records) cid = some position)
    (hget : records[position]? = some record) :
    Hop Means record.2.parent (some cid) record.2.mutations := by
  obtain ⟨rec', hrec'⟩ := indexGet_indexRecords hpos
  obtain rfl : record = (cid, rec') := Option.some.inj (hget.symm.trans hrec')
  exact hrec _ (mem_of_getElem? hget)

/-- The walk rule: what one hop preserves holds where the walk stops. -/
theorem walk_induction (base : Option Cid) (I : Option Cid → List (List Mutation) → Prop)
    (step : ∀ parent root ms chain, Hop Means parent root ms → I root chain →
      I parent (ms :: chain)) :
    ∀ (hops : Nat) {current : Option Cid} {chain : List (List Mutation)} {count : Nat}
      {last : Option Cid} {full : List (List Mutation)}, I current chain →
      walk records (indexRecords records) base hops current chain count = some (last, full) →
      I last full := by
  intro hops
  induction hops with
  | zero =>
    intro current chain count last full hi hw
    simp only [walk, Option.some.injEq, Prod.mk.injEq] at hw
    obtain ⟨rfl, rfl⟩ := hw
    exact hi
  | succ hops ih =>
    intro current chain count last full hi hw
    rw [walk] at hw
    split at hw
    · simp only [Option.some.injEq, Prod.mk.injEq] at hw
      obtain ⟨rfl, rfl⟩ := hw
      exact hi
    · simp only [bind_eq_bind, bind_eq_some_iff] at hw
      obtain ⟨cid, rfl, position, hpos, record, hget, hw⟩ := hw
      split at hw
      · cases hw
      · exact ih (step _ _ _ _ (hop_of_index hrec hpos hget) hi) hw

/-- A walk that leaves its start passes hops that lead back to it. -/
theorem walk_hop (functional : ∀ r f g, Means r f → Means r g → f = g)
    (hw : walk records (indexRecords records) base hops branch [] 0 = some (last, full))
    (hne : last ≠ branch) : ∃ f, Means last f ∧ Means branch (applyMutations f full.flatten) := by
  have hinv := walk_induction hrec base
    (fun current chain => (current = branch ∧ chain = []) ∨
      ∃ f, Means current f ∧ Means branch (applyMutations f chain.flatten))
    (by
      rintro parent root ms chain ⟨-, f, hf, hroot⟩ (⟨rfl, rfl⟩ | ⟨h, hm, hbranch⟩)
      · exact .inr ⟨f, hf, by simpa using hroot⟩
      · obtain rfl : h = applyMutations f ms := functional _ _ _ hm hroot
        rw [applyMutations, applyMutations, ← Edits.apply_append] at hbranch
        exact .inr ⟨f, hf, hbranch⟩)
    hops (.inl ⟨rfl, rfl⟩) hw
  exact hinv.resolve_left fun h => hne h.1

theorem walk_sorted
    (hw : walk records (indexRecords records) base hops branch [] 0 = some (last, full)) :
    ∀ ms ∈ full, StrictlySorted ms :=
  walk_induction hrec base (fun _ chain => ∀ ms ∈ chain, StrictlySorted ms)
    (fun _ _ _ _ hop hi => forall_mem_cons.mpr ⟨hop.1, hi⟩) hops (by simp) hw

theorem changesSinceIndexed_hop (functional : ∀ r f g, Means r f → Means r g → f = g)
    (hne : base ≠ branch)
    (h : changesSinceIndexed records (indexRecords records) base branch = some ms) :
    Hop Means base branch ms := by
  rw [changesSinceIndexed, if_neg hne] at h
  simp only [bind_eq_bind, bind_eq_some_iff] at h
  obtain ⟨⟨current, chain⟩, hwalk, h⟩ := h
  split at h
  · cases h
  · next hcur =>
      obtain rfl : current = base := by simpa using hcur
      obtain ⟨f, hf, hbranch⟩ := walk_hop hrec functional hwalk hne
      have hnormal : Hop Means current branch (Edits.normalize Mutation.key chain.flatten) := by
        refine ⟨Edits.normalize_sorted _ _, f, hf, ?_⟩
        rwa [applyMutations, Edits.apply_normalize]
      rcases chain with _ | ⟨changes, _ | ⟨b, rest⟩⟩
      · exact Option.some.inj h ▸ hnormal
      · obtain rfl : changes = ms := Option.some.inj h
        exact ⟨walk_sorted hrec hwalk _ mem_cons_self, f, hf, by simpa using hbranch⟩
      · exact Option.some.inj h ▸ hnormal

end Records

theorem Sound.ensureAncestryIndex (hc : c.Sound Means) : c.ensureAncestryIndex.Sound Means := by
  unfold BranchLineageCache.ensureAncestryIndex
  split
  · exact hc
  · exact ⟨hc.records, hc.accelerations, by simp⟩

theorem Sound.accelerate (hc : c.Sound Means) {branch : Cid} (h : Hop Means base (some branch) ms) :
    (c.accelerate base branch ms).Sound Means := by
  simp only [BranchLineageCache.accelerate]
  split
  · refine ⟨hc.records, fun a ha => ?_, hc.index⟩
    rcases mem_append.mp (mem_of_mem_evict ha) with ha | ha
    · exact hc.accelerations a ha
    · obtain rfl := mem_singleton.mp ha
      exact h
  · exact hc

theorem Sound.insert (hc : c.Sound Means) {root : Cid} (h : Hop Means base (some root) ms) :
    (c.insert base root ms).Sound Means := by
  simp only [BranchLineageCache.insert]
  split
  · exact hc
  · refine ⟨fun r hr => ?_, hc.accelerations, fun _ hindex => by cases hindex⟩
    rcases mem_append.mp (mem_of_mem_evict hr) with hr | hr
    · exact hc.records r hr
    · obtain rfl := mem_singleton.mp hr
      exact h

/-- What is sound for some meaning of roots is sound for any that roots have besides. -/
theorem Sound.mono {Means' : Option Cid → (Bytes → Option Bytes) → Prop}
    (hmeans : ∀ root f, Means root f → Means' root f) (hc : c.Sound Means) : c.Sound Means' := by
  have hhop : ∀ {parent root ms}, Hop Means parent root ms → Hop Means' parent root ms :=
    fun ⟨hs, f, hf, hroot⟩ => ⟨hs, f, hmeans _ _ hf, hmeans _ _ hroot⟩
  exact ⟨fun r hr => hhop (hc.records r hr), fun a ha => hhop (hc.accelerations a ha), hc.index⟩

/-- Every answer of a sound cache leads from the map at `base` to the map at `branch`,
and answering keeps the cache sound. -/
theorem changesSince_sound (functional : ∀ r f g, Means r f → Means r g → f = g)
    (hc : c.Sound Means) (base branch : Option Cid) :
    (c.changesSince base branch).2.Sound Means ∧
      ∀ ms, (c.changesSince base branch).1 = some ms → Links Means base branch ms := by
  unfold BranchLineageCache.changesSince
  split
  · next h =>
      subst h
      refine ⟨hc, fun ms hms => ?_⟩
      cases hms
      exact ⟨List.Pairwise.nil, fun f g hf hg => functional _ _ _ hg hf⟩
  · next hne =>
      split
      · exact ⟨hc, by simp⟩
      · next root =>
          split
          · next a ha =>
              refine ⟨hc, fun ms hms => ?_⟩
              cases hms
              have hop := hc.accelerations a (mem_reverse.mp (mem_of_find?_eq_some ha))
              obtain ⟨rfl, rfl⟩ : a.base = base ∧ a.branch = root := by
                simpa using List.find?_some ha
              exact hop.links functional
          · split
            · next r hr =>
                refine ⟨hc, fun ms hms => ?_⟩
                cases hms
                have hop := hc.records r (mem_reverse.mp (mem_of_find?_eq_some hr))
                obtain ⟨rfl, rfl⟩ : r.1 = root ∧ r.2.parent = base := by
                  simpa using List.find?_some hr
                exact hop.links functional
            · have hc' := hc.ensureAncestryIndex
              dsimp only
              split
              · exact ⟨hc', by simp⟩
              · next index hindex =>
                  obtain rfl := hc'.index index hindex
                  split
                  · exact ⟨hc', by simp⟩
                  · next changes hchanges =>
                      have hop := changesSinceIndexed_hop hc'.records functional hne hchanges
                      refine ⟨hc'.accelerate hop, fun ms hms => ?_⟩
                      cases hms
                      exact hop.links functional

end Soundness

end BranchLineageCache

end Prolly

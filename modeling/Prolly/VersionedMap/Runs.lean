import Prolly.VersionedMap.Commits

/-!
# Prolly.VersionedMap.Runs

Any number of calls on one map, interleaved operation by operation. Roots change at commits
only, and a commit does what its call does (`Call.Does`); what holds in every run is what each
commit keeps.

* Every commit keeps the head cataloged, but for that of `rollback_to`: it does not check the
  version root it has read (`heads_cataloged_iff`).
* Every commit of a map call finds the map unmanaged, but the commit of `IndexedMap::open` does
  not check that there is no head (`managed_or_plain_iff`).
-/

namespace Prolly

open Optimistic (Config Event Linked Run)
open List

namespace VersionedMap

variable (map : VersionedMap) {id : Cid} {name : Bytes}

/-! ### Names -/

theorem versionName_injective {id' : Cid} (h : map.versionName id = map.versionName id') :
    id = id' := Cid.ext (append_cancel_left h)

theorem headName_ne_version (suffix : Bytes) : map.headName ≠ map.versionsPrefix ++ suffix := by
  unfold headName versionsPrefix
  rw [append_assoc]
  intro h
  have hsecond := congrArg (·[1]?) (append_cancel_left h)
  simp only [asciiBytes] at hsecond
  exact absurd hsecond (by simp; decide)

theorem collection_ne_map {suffix : Bytes} (h : indexedCollectionRootName map.id = .ok name) :
    name ≠ map.rootPrefix ++ suffix := by
  unfold indexedCollectionRootName at h
  split at h
  · cases h
  · cases h
    intro hsame
    have hfirst := congrArg (·[0]?) hsame
    simp only [rootPrefix, asciiBytes] at hfirst
    exact absurd hfirst (by simp; decide)

theorem collection_ne_head (h : indexedCollectionRootName map.id = .ok name) :
    name ≠ map.headName := map.collection_ne_map h

theorem collection_ne_version (h : indexedCollectionRootName map.id = .ok name) (suffix : Bytes) :
    name ≠ map.versionsPrefix ++ suffix := by
  unfold versionsPrefix
  rw [append_assoc]
  exact map.collection_ne_map h

/-! ### The catalog -/

/-- The catalog names every tree by its identifier. -/
def NamedById (roots : NamedRoots) : Prop :=
  ∀ suffix tree, treeAt roots (map.versionsPrefix ++ suffix) = some tree →
    suffix = (map.engine.versionId tree).bytes

/-- The head is in the catalog, and the catalog names every tree by its identifier. -/
structure Cataloged (roots : NamedRoots) : Prop where
  head : ∀ tree, treeAt roots map.headName = some tree →
    treeAt roots (map.versionName (map.engine.versionId tree)) = some tree
  names : map.NamedById roots

variable {map} {roots roots' : NamedRoots} {tree : Tree}

/-- The names of the catalog stay right when a version root is set. -/
theorem NamedById.setVersion (hnames : map.NamedById roots)
    (h : SetsRoot (map.versionName id) tree roots roots') (hid : map.engine.versionId tree = id) :
    map.NamedById roots' := by
  intro suffix other hother
  by_cases hname : map.versionsPrefix ++ suffix = map.versionName id
  · rw [hname, h.1, Option.some.injEq] at hother
    rw [← hother, hid]
    exact append_cancel_left hname
  · rw [h.treeAt_of_ne hname] at hother
    exact hnames suffix other hother

/-- The names of the catalog stay right when the head is set. -/
theorem NamedById.setHead (hnames : map.NamedById roots)
    (h : SetsRoot map.headName tree roots roots') : map.NamedById roots' := by
  intro suffix other hother
  rw [h.treeAt_of_ne (map.headName_ne_version suffix).symm] at hother
  exact hnames suffix other hother

/-- The head may be set to a tree exactly when the tree is in the catalog. -/
theorem NamedById.cataloged_iff (hnames : map.NamedById roots)
    (h : SetsRoot map.headName tree roots roots') :
    map.Cataloged roots' ↔
      treeAt roots (map.versionName (map.engine.versionId tree)) = some tree := by
  have hversion : treeAt roots' (map.versionName (map.engine.versionId tree)) = treeAt roots _ :=
    h.treeAt_of_ne (map.headName_ne_version _).symm
  constructor
  · intro hcataloged
    rw [← hversion]
    exact hcataloged.head tree h.1
  · refine fun htree => ⟨fun other hother => ?_, hnames.setHead h⟩
    rw [h.1, Option.some.injEq] at hother
    rw [← hother]
    exact hversion.trans htree

theorem Cataloged.movesTo (hcataloged : map.Cataloged roots) (h : map.MovesTo tree roots roots') :
    map.Cataloged roots' := by
  rcases h with ⟨-, rfl⟩ | ⟨mid, hversion, hhead⟩
  · exact hcataloged
  · exact ((hcataloged.names.setVersion hversion rfl).cataloged_iff hhead).mpr hversion.1

theorem Cataloged.prunes (hcataloged : map.Cataloged roots) (h : map.Prunes roots roots') :
    map.Cataloged roots' := by
  obtain ⟨headTree, hheadTree, hroots⟩ := h
  -- a root that is left is as it was
  have hleft : ∀ name tree, treeAt roots' name = some tree → treeAt roots name = some tree := by
    intro name tree htree
    rcases hroots name with hsame | ⟨id, -, -, hgone⟩
    · rwa [treeAt, hsame] at htree
    · simp [treeAt, hgone] at htree
  refine ⟨fun tree htree => ?_, fun suffix tree htree =>
    hcataloged.names suffix tree (hleft _ _ htree)⟩
  have hhead := hleft _ _ htree
  obtain rfl : headTree = tree := Option.some.inj (hheadTree.symm.trans hhead)
  rcases hroots (map.versionName (map.engine.versionId headTree)) with hsame | ⟨id, hid, hname, -⟩
  · rw [treeAt, hsame]
    exact hcataloged.head headTree hhead
  · exact absurd (map.versionName_injective hname).symm hid

/-- The versions of a backup are all in the catalog after it. -/
theorem Restores.cataloged {versions : List MapBackupVersion}
    (h : map.Restores versions roots roots')
    (hids : ∀ version ∈ versions, map.engine.versionId version.bundle.tree = version.id)
    (hnodup : (versions.map (·.id)).Nodup) (hnames : map.NamedById roots) :
    map.NamedById roots' ∧ (∀ version ∈ versions, treeAt roots' (map.versionName version.id) =
      some version.bundle.tree) ∧
    ∀ id, id ∉ versions.map (·.id) →
      treeAt roots' (map.versionName id) = treeAt roots (map.versionName id) := by
  induction versions generalizing roots with
  | nil =>
    obtain rfl : roots' = roots := h
    exact ⟨hnames, by simp, fun _ _ => rfl⟩
  | cons version versions ih =>
    obtain ⟨mid, hset, hrest⟩ := h
    rw [map_cons, nodup_cons] at hnodup
    have hversion := hids version mem_cons_self
    obtain ⟨hnames', hall, hother⟩ := ih hrest
      (fun other h => hids other (.tail _ h)) hnodup.2
      (hnames.setVersion hset hversion)
    refine ⟨hnames', fun other hmem => ?_, fun id hid => ?_⟩
    · rcases mem_cons.mp hmem with rfl | hmem
      · rw [hother _ hnodup.1]
        exact hset.1
      · exact hall other hmem
    · rw [map_cons, mem_cons, not_or] at hid
      rw [hother id hid.2]
      exact hset.treeAt_of_ne fun hsame => hid.1 (map.versionName_injective hsame)

variable (map)

/-- The version a rollback goes back to. -/
def Call.rollbackTarget : Call → Option Cid
  | .rollbackTo id _ => some id
  | _ => none

/-- When a rollback commits, the version root it goes back to holds the tree it makes the
head. -/
def Call.TargetKept (call : Call) (roots roots' : NamedRoots) : Prop :=
  ∀ id ∈ call.rollbackTarget, treeAt roots (map.versionName id) = treeAt roots' map.headName

instance (call : Call) (roots roots' : NamedRoots) :
    Decidable (call.TargetKept map roots roots') :=
  inferInstanceAs (Decidable (∀ id ∈ call.rollbackTarget, _))

variable {map}

/-- A commit keeps the map cataloged exactly when the target of a rollback is still there. -/
theorem Call.Does.cataloged_iff {call : Call} (h : call.Does map roots roots')
    (hcataloged : map.Cataloged roots) :
    map.Cataloged roots' ↔ call.TargetKept map roots roots' := by
  cases call with
  | apply mutations timestampMillis =>
    obtain ⟨-, tree, nodes, -, hmoves⟩ := h
    exact iff_of_true (hcataloged.movesTo hmoves) nofun
  | applyIf expected mutations timestampMillis =>
    obtain ⟨-, -, tree, nodes, -, hmoves⟩ := h
    exact iff_of_true (hcataloged.movesTo hmoves) nofun
  | restoreIf expected target timestampMillis =>
    obtain ⟨-, -, tree, -, hmoves⟩ := h
    exact iff_of_true (hcataloged.movesTo hmoves) nofun
  | rollbackTo id timestampMillis =>
    obtain ⟨-, tree, rfl, hhead⟩ := h
    rw [hcataloged.names.cataloged_iff hhead, ← hhead.1]
    exact ⟨fun htree id hid => Option.some.inj hid ▸ htree, fun hkept => hkept _ rfl⟩
  | importAsHead bundle timestampMillis =>
    exact iff_of_true (hcataloged.movesTo h.2) nofun
  | restoreBackup backup now =>
    obtain ⟨-, -, hids, hnodup, mid, hrestores, version, hversion, hhead⟩ := h
    obtain ⟨hnames, hall, -⟩ := hrestores.cataloged hids hnodup hcataloged.names
    refine iff_of_true ((hnames.cataloged_iff hhead).mpr ?_) nofun
    rw [hids version hversion]
    exact hall version hversion
  | keepLast count => exact iff_of_true (hcataloged.prunes h.2) nofun
  | keepFor nowMillis ageMillis => exact iff_of_true (hcataloged.prunes h.2) nofun
  | keepVersions ids => exact iff_of_true (hcataloged.prunes h.2) nofun
  | openIndexed timestampMillis =>
    obtain ⟨name, state, hname, -, hset⟩ := h
    have hversion := fun suffix => hset.treeAt_of_ne (map.collection_ne_version hname suffix).symm
    refine iff_of_true ⟨fun tree htree => ?_, fun suffix tree htree => ?_⟩ nofun
    · rw [hset.treeAt_of_ne (map.collection_ne_head hname).symm] at htree
      exact (hversion _).trans (hcataloged.head tree htree)
    · exact hcataloged.names suffix tree ((hversion suffix).symm.trans htree)

/-! ### Runs -/

variable {ι : Type} [DecidableEq ι] (map)

/-- The calls about to begin. -/
def start (store : MemStore) (calls : ι → Call) :
    Config ι Bytes Bytes RootManifest (Except MapError Response) :=
  ⟨store, fun i => { prog := (calls i).client map }⟩

variable {map} {store : MemStore} {calls : ι → Call}
  {events : List (Event ι Bytes Bytes RootManifest)}
  {c : Config ι Bytes Bytes RootManifest (Except MapError Response)}

/-- Every commit of a run does what its call does. -/
theorem does_of_run (h : Run (map.start store calls) events c) :
    ∀ e ∈ events, (calls e.process).Does map e.before.roots e.after.roots :=
  h.commitsFrom (fun i => (calls i).client_commits map) fun _ => rfl

/-- Along every interleaving of calls on a map that is cataloged at the start, it stays
cataloged exactly when each rollback that commits finds the version root of its target as it
read it. -/
theorem heads_cataloged_iff (hstore : map.Cataloged store.roots)
    (h : Run (map.start store calls) events c) :
    (map.Cataloged c.store.roots ∧
        ∀ e ∈ events, map.Cataloged e.before.roots ∧ map.Cataloged e.after.roots) ↔
      ∀ e ∈ events, (calls e.process).TargetKept map e.before.roots e.after.roots := by
  constructor
  · rintro ⟨-, hall⟩ e he
    obtain ⟨hbefore, hafter⟩ := hall e he
    exact ((does_of_run h e he).cataloged_iff hbefore).mp hafter
  · intro hkept
    exact h.linked.invariant hstore fun e he hbefore =>
      ((does_of_run h e he).cataloged_iff hbefore).mpr (hkept e he)

/-! #### A rollback and a retention

An engine with two trees to tell apart, and a map with both as versions, the second the
head. -/

/-- Thirty-two equal bytes, for a digest. -/
def sampleCid (byte : UInt8) : Cid := .filled byte

/-- Every edit leads to the same tree. -/
def sampleEngine : MapEngine where
  versionId tree := tree.root.getD (sampleCid 0)
  format := {}
  batch tree mutations := .ok (if mutations = [] then tree else ⟨some (sampleCid 1), {}⟩, [])
  verify _ := .ok true
  newState _ := .ok (⟨some (sampleCid 2), {}⟩, [])
  stateSource _ := .ok [109]

def sampleMap : VersionedMap := ⟨sampleEngine, [109]⟩

/-- Two edits, a rollback to the first version, and a retention of the head alone. -/
def sampleCalls : Fin 4 → Call
  | 0 => .apply [] 1
  | 1 => .apply [.upsert [97] []] 2
  | 2 => .rollbackTo (sampleCid 0) 3
  | 3 => .keepLast 0

/-- The rollback has read its version; the retention then removes it. -/
def racingTurns : List (Fin 4) :=
  replicate 12 0 ++ replicate 12 1 ++ [2, 2] ++ replicate 10 3 ++
    replicate 8 2

theorem cataloged_empty (map : VersionedMap) : map.Cataloged ∅ where
  head _ h := by cases h
  names _ _ h := by cases h

theorem rollbackTo_uncataloged :
    ∃ events c, Run (sampleMap.start ⟨∅, ∅⟩ sampleCalls) events c ∧
      ¬sampleMap.Cataloged c.store.roots := by
  refine ⟨_, _, Config.run_exec _ racingTurns, fun hcataloged => ?_⟩
  have hversion := hcataloged.head ⟨none, {}⟩ (by decide +kernel)
  revert hversion
  decide +kernel

/-- The rollback runs before the retention. -/
theorem heads_cataloged_sequential :
    let c := (sampleMap.start ⟨∅, ∅⟩ sampleCalls).exec
      (replicate 12 0 ++ replicate 12 1 ++ replicate 10 2 ++ replicate 10 3)
    c.1.map Event.process = [0, 1, 2, 3] ∧ sampleMap.Cataloged c.2.store.roots := by
  refine ⟨by decide +kernel, ?_⟩
  exact ((heads_cataloged_iff (cataloged_empty _) (Config.run_exec _ _)).mpr (by decide +kernel)).1

/-! ### Maps and indexed collections -/

section Exclusive

variable (map)

/-- The map has no head or is no indexed collection. -/
def Exclusive (roots : NamedRoots) : Prop :=
  ∀ name, indexedCollectionRootName map.id = .ok name →
    roots.get? map.headName = none ∨ roots.get? name = none

/-- A call of `IndexedMap::open`. -/
def Call.opens : Call → Bool
  | .openIndexed _ => true
  | _ => false

variable {map} {name : Bytes} {call : Call}

theorem MovesTo.get?_collection (h : map.MovesTo tree roots roots')
    (hname : indexedCollectionRootName map.id = .ok name) : roots'.get? name = roots.get? name := by
  rcases h with ⟨-, rfl⟩ | ⟨mid, hversion, hhead⟩
  · rfl
  · rw [hhead.2 _ (map.collection_ne_head hname), hversion.2 _ (map.collection_ne_version hname _)]

theorem Restores.get?_collection {versions : List MapBackupVersion}
    (h : map.Restores versions roots roots') (hname : indexedCollectionRootName map.id = .ok name) :
    roots'.get? name = roots.get? name := by
  induction versions generalizing roots with
  | nil =>
    obtain rfl : roots' = roots := h
    rfl
  | cons version versions ih =>
    obtain ⟨mid, hset, hrest⟩ := h
    rw [ih hrest, hset.2 _ (map.collection_ne_version hname _)]

theorem Prunes.get?_collection (h : map.Prunes roots roots')
    (hname : indexedCollectionRootName map.id = .ok name) : roots'.get? name = roots.get? name := by
  obtain ⟨headTree, -, hroots⟩ := h
  rcases hroots name with hsame | ⟨id, -, hversion, -⟩
  · exact hsame
  · exact absurd hversion (map.collection_ne_version hname _)

/-- A commit of a map call finds no indexed collection and makes none. -/
theorem Call.Does.get?_collection (h : call.Does map roots roots') (hcall : call.opens = false)
    (hname : indexedCollectionRootName map.id = .ok name) : roots'.get? name = none := by
  have hnone : map.Unmanaged roots → roots.get? name = none := by
    rintro ⟨name', hname', hroot⟩
    obtain rfl : name' = name := Except.ok.inj (hname'.symm.trans hname)
    exact hroot
  cases call with
  | apply mutations timestampMillis =>
    obtain ⟨hguard, tree, nodes, -, hmoves⟩ := h
    rw [hmoves.get?_collection hname, hnone hguard]
  | applyIf expected mutations timestampMillis =>
    obtain ⟨hguard, -, tree, nodes, -, hmoves⟩ := h
    rw [hmoves.get?_collection hname, hnone hguard]
  | restoreIf expected target timestampMillis =>
    obtain ⟨hguard, -, tree, -, hmoves⟩ := h
    rw [hmoves.get?_collection hname, hnone hguard]
  | rollbackTo id timestampMillis =>
    obtain ⟨hguard, tree, -, hhead⟩ := h
    rw [hhead.2 _ (map.collection_ne_head hname), hnone hguard]
  | importAsHead bundle timestampMillis => rw [h.2.get?_collection hname, hnone h.1]
  | restoreBackup backup now =>
    obtain ⟨hguard, -, -, -, mid, hrestores, version, -, hhead⟩ := h
    rw [hhead.2 _ (map.collection_ne_head hname), hrestores.get?_collection hname, hnone hguard]
  | keepLast count => rw [h.2.get?_collection hname, hnone h.1]
  | keepFor nowMillis ageMillis => rw [h.2.get?_collection hname, hnone h.1]
  | keepVersions ids => rw [h.2.get?_collection hname, hnone h.1]
  | openIndexed timestampMillis => cases hcall

/-- A commit keeps the two apart exactly when `IndexedMap::open` finds no head. -/
theorem Call.Does.exclusive_iff (h : call.Does map roots roots') :
    map.Exclusive roots' ↔ (call.opens = true → roots.get? map.headName = none) := by
  cases hcall : call.opens with
  | false =>
    refine iff_of_true (fun name hname => ?_) nofun
    exact .inr (h.get?_collection hcall hname)
  | true =>
    cases call with
    | openIndexed timestampMillis =>
      obtain ⟨name, state, hname, -, hset⟩ := h
      have hsome : roots'.get? name ≠ none := by
        intro hnone
        simpa [treeAt, hnone] using hset.1
      rw [← hset.2 _ (map.collection_ne_head hname).symm]
      refine ⟨fun hexclusive _ => (hexclusive name hname).resolve_right hsome, ?_⟩
      exact fun hhead _ _ => .inl (hhead rfl)
    | _ => cases hcall

/-- Along every interleaving of calls from a store where the map is not both, it is never both
exactly when each `IndexedMap::open` that commits finds no head then. -/
theorem managed_or_plain_iff (hstore : map.Exclusive store.roots)
    (h : Run (map.start store calls) events c) :
    (map.Exclusive c.store.roots ∧
        ∀ e ∈ events, map.Exclusive e.before.roots ∧ map.Exclusive e.after.roots) ↔
      ∀ e ∈ events, (calls e.process).opens = true →
        e.before.roots.get? map.headName = none := by
  constructor
  · rintro ⟨-, hall⟩ e he
    exact (does_of_run h e he).exclusive_iff.mp (hall e he).2
  · intro hfinds
    exact h.linked.invariant hstore fun e he _ =>
      (does_of_run h e he).exclusive_iff.mpr (hfinds e he)

/-- A map is opened as an indexed collection and edited. -/
def openingCalls : Bool → Call
  | true => .openIndexed 1
  | false => .apply [] 2

/-- The opening has found no head; the edit then makes one. -/
theorem openIndexed_both :
    ∃ events c, Run (sampleMap.start ⟨∅, ∅⟩ openingCalls) events c ∧
      ¬sampleMap.Exclusive c.store.roots := by
  refine ⟨_, _, Config.run_exec _
    ([true, true] ++ replicate 12 false ++ replicate 6 true), fun hexclusive => ?_⟩
  have hone := hexclusive _ rfl
  revert hone
  decide +kernel

/-- The edit begins after the opening and is refused. -/
theorem managed_or_plain_sequential :
    let c := (sampleMap.start ⟨∅, ∅⟩ openingCalls).exec
      (replicate 8 true ++ replicate 12 false)
    c.1.map Event.process = [true] ∧ sampleMap.Exclusive c.2.store.roots := by
  refine ⟨by decide +kernel, ?_⟩
  exact ((managed_or_plain_iff (fun _ _ => .inl rfl) (Config.run_exec _ _)).mpr
    (by decide +kernel)).1

end Exclusive

end VersionedMap

end Prolly

import Prolly.VersionedMap.Model

/-!
# Prolly.VersionedMap.Commits

What a commit of each call does to the named roots (`Call.Does`), whatever happened to them
since the call began. The proofs follow the clients with the rules of `Optimistic` for a
transaction that sees its own writes.
-/

namespace Prolly

open Optimistic (Prog)
open List

/-- One root has the tree, and no other root has changed. -/
def SetsRoot (name : Bytes) (tree : Tree) (roots roots' : NamedRoots) : Prop :=
  treeAt roots' name = some tree ∧ ∀ other, other ≠ name → roots'.get? other = roots.get? other

variable {name : Bytes} {tree : Tree} {roots : NamedRoots}

theorem SetsRoot.refl (h : treeAt roots name = some tree) :
    SetsRoot name tree roots roots := ⟨h, fun _ _ => rfl⟩

theorem SetsRoot.treeAt_of_ne {other : Bytes} {roots' : NamedRoots}
    (h : SetsRoot name tree roots roots') (hother : other ≠ name) :
    treeAt roots' other = treeAt roots other := by
  rw [treeAt, h.2 other hother, treeAt]

namespace VersionedMap

variable (map : VersionedMap)

/-! ### The commits of the calls -/

/-- The map is not an indexed collection, and could be one. -/
def Unmanaged (roots : NamedRoots) : Prop :=
  ∃ name, indexedCollectionRootName map.id = .ok name ∧ roots.get? name = none

/-- The tree becomes the head, cataloged; or it is the head and nothing changes. -/
def MovesTo (tree : Tree) (roots roots' : NamedRoots) : Prop :=
  treeAt roots map.headName = some tree ∧ roots' = roots ∨
    ∃ mid, SetsRoot (map.versionName (map.engine.versionId tree)) tree roots mid ∧
      SetsRoot map.headName tree mid roots'

/-- The head moves to the batch over it. -/
def Edits (mutations : List Mutation) (roots roots' : NamedRoots) : Prop :=
  ∃ tree nodes, map.engine.batch ((treeAt roots map.headName).getD map.create) mutations =
    .ok (tree, nodes) ∧ map.MovesTo tree roots roots'

/-- The version roots hold the versions of a backup, and no other root has changed. -/
def Restores : List MapBackupVersion → NamedRoots → NamedRoots → Prop
  | [], roots, roots' => roots' = roots
  | version :: versions, roots, roots' => ∃ mid,
      SetsRoot (map.versionName version.id) version.bundle.tree roots mid ∧
        Restores versions mid roots'

/-- Some version roots are gone, that of the head not among them. -/
def Prunes (roots roots' : NamedRoots) : Prop :=
  ∃ headTree, treeAt roots map.headName = some headTree ∧
    ∀ name, roots'.get? name = roots.get? name ∨
      ∃ id, id ≠ map.engine.versionId headTree ∧ name = map.versionName id ∧
        roots'.get? name = none

def Call.Does (call : Call) (roots roots' : NamedRoots) : Prop :=
  match call with
  | .apply mutations _ => map.Unmanaged roots ∧ map.Edits mutations roots roots'
  | .applyIf expected mutations _ =>
    map.Unmanaged roots ∧ (treeAt roots map.headName).map map.engine.versionId = expected ∧
      map.Edits mutations roots roots'
  | .restoreIf expected target _ =>
    map.Unmanaged roots ∧ (treeAt roots map.headName).map map.engine.versionId = expected ∧
      ∃ tree, map.engine.versionId tree = target ∧ map.MovesTo tree roots roots'
  | .rollbackTo id _ =>
    map.Unmanaged roots ∧ ∃ tree, map.engine.versionId tree = id ∧
      SetsRoot map.headName tree roots roots'
  | .importAsHead bundle _ => map.Unmanaged roots ∧ map.MovesTo bundle.tree roots roots'
  | .restoreBackup backup _ =>
    map.Unmanaged roots ∧ treeAt roots map.headName = none ∧
      (∀ version ∈ backup.versions, map.engine.versionId version.bundle.tree = version.id) ∧
      (backup.versions.map (·.id)).Nodup ∧ ∃ mid, map.Restores backup.versions roots mid ∧
        ∃ version ∈ backup.versions, SetsRoot map.headName version.bundle.tree mid roots'
  | .keepLast _ | .keepFor _ _ | .keepVersions _ => map.Unmanaged roots ∧ map.Prunes roots roots'
  | .openIndexed _ =>
    ∃ name state, indexedCollectionRootName map.id = .ok name ∧ roots.get? name = none ∧
      SetsRoot name state roots roots'

/-! ### Rules for the parts -/

variable {β γ : Type} {R J : NamedRoots → NamedRoots → Prop} {name : Bytes} {tree : Tree}
  {timestampMillis now : Nat} {id : Cid} {nodes : List (Bytes × Bytes)} {mutations : List Mutation}
  {next : Except MapError MapVersion → Client γ} {expected : Option Cid} {body : Client γ}
  {versions : List MapBackupVersion} {engine : MapEngine} {backup : VersionedMapBackup}

/-- A continuation that is safe at any point: it starts a transaction before it commits. -/
def Safe (R : NamedRoots → NamedRoots → Prop) (client : Client γ) : Prop :=
  ∀ J, client.CommitsFrom R J

theorem loadNamedRoot_commits {next : Option Tree → Client γ}
    (h : ∀ tree, (next tree).CommitsFrom R fun roots view => J roots view ∧
      treeAt view name = tree) :
    (Client.loadNamedRoot name next).CommitsFrom R J := by
  refine .load fun value => (h _).mono ?_
  rintro roots view ⟨hJ, hvalue⟩
  exact ⟨hJ, by rw [treeAt, hvalue]⟩

theorem publishNamedRoot_commits {next : Client γ}
    (h : next.CommitsFrom R fun roots view => ∃ view0, J roots view0 ∧
      SetsRoot name tree view0 view) :
    (Client.publishNamedRootAtMillis name tree timestampMillis next).CommitsFrom R J := by
  refine .load fun value => .stage (h.mono ?_)
  rintro roots view ⟨view0, ⟨hJ, -⟩, rfl⟩
  refine ⟨view0, hJ, ?_, fun other hother => ?_⟩
  · simp [treeAt, SortedMap.get?_set]
  · simp [SortedMap.get?_set, hother.symm]

theorem guard_commits {next : Except MapError β → Client γ} {body : Unit → Client γ}
    (hnext : ∀ result, Safe R (next result))
    (h : (body ()).CommitsFrom R fun roots view => J roots view ∧ map.Unmanaged view) :
    (map.guardManagedMapWrite (orReturn next body)).CommitsFrom R J := by
  unfold guardManagedMapWrite
  split
  · exact hnext _ _
  · next name hname =>
    refine loadNamedRoot_commits fun root => ?_
    split
    · exact hnext _ _
    · next hroot =>
      refine h.mono ?_
      rintro roots view ⟨hJ, hview⟩
      refine ⟨hJ, name, hname, ?_⟩
      simpa [treeAt, ← hview] using hroot

theorem publishVersion_commits {collision : String} {next : Except MapError β → Client γ}
    {body : Unit → Client γ} (hnext : ∀ result, Safe R (next result))
    (h : (body ()).CommitsFrom R fun roots view => ∃ view0, J roots view0 ∧
      SetsRoot (map.versionName id) tree view0 view) :
    (map.publishVersion id tree timestampMillis collision
      (orReturn next body)).CommitsFrom R J := by
  refine loadNamedRoot_commits fun existing => ?_
  split
  · next existing =>
    split
    · exact .rollback (hnext _ _)
    · next hsame =>
      refine h.mono ?_
      rintro roots view ⟨hJ, hview⟩
      exact ⟨view, hJ, .refl (by rw [hview, not_not.mp hsame])⟩
  · refine publishNamedRoot_commits (h.mono ?_)
    rintro roots view ⟨view0, ⟨hJ, -⟩, hset⟩
    exact ⟨view0, hJ, hset⟩

theorem stageNodes_commits {next : Client γ} (h : next.CommitsFrom R J) :
    (stageNodes nodes next).CommitsFrom R J := by
  induction nodes with
  | nil => exact h
  | cons node nodes ih => exact .stageData ih

/-- A commit, with a safe continuation when it is done and after a conflict. -/
theorem commit_commits {next : Option TransactionConflict → Client γ}
    (happlied : Safe R (next none)) (hconflict : ∀ conflict, Safe R (next (some conflict)))
    (hdoes : ∀ roots view, J roots view → R roots view) :
    (Optimistic.Prog.commit next : Client γ).CommitsFrom R J := by
  refine .commit hdoes fun outcome => ?_
  cases outcome with
  | none => exact happlied _
  | some conflict => exact hconflict conflict _

theorem publishNodes_safe {next : Client γ} (h : Safe R next) :
    Safe R (publishNodes nodes next) := by
  induction nodes with
  | nil => exact h
  | cons node nodes ih => exact fun J => .publish (ih J)

/-- What holds of an attempt if it does of the later ones holds of all of them. -/
theorem retry_induction {P : Client γ → Prop} {next : Except MapError β → Client γ}
    {attempt : (TransactionConflict → Client γ) → Client γ} (hfailed : P .failed)
    (hnext : ∀ error, P (next (.error error)))
    (h : ∀ again, (∀ conflict, P (again conflict)) → P (attempt again)) (attempts : Nat)
    (conflict : Option TransactionConflict) : P (retry next attempt attempts conflict) := by
  induction attempts generalizing conflict with
  | zero =>
    cases conflict with
    | none => exact hfailed
    | some conflict => exact hnext _
  | succ attempts ih => exact h _ fun _ => ih _

theorem head_safe {next : Option MapVersion → Client γ} (h : ∀ head, Safe R (next head)) :
    Safe R (map.head next) := fun J => .get fun _ => h _ J

theorem version_safe {next : Except MapError (Option MapVersion) → Client γ}
    (h : ∀ result, (∀ version, result = .ok (some version) →
      map.engine.versionId version.tree = id) → Safe R (next result)) :
    Safe R (map.version id next) := by
  intro J
  refine .get fun manifest => ?_
  split
  · exact h _ (by simp) J
  · dsimp only
    split
    · exact h _ (by simp) J
    · next hid =>
      refine map.head_safe (fun head => h _ ?_) J
      simp only [Except.ok.injEq, Option.some.injEq]
      rintro version rfl
      exact not_not.mp hid

theorem knownVersion_safe {next : Except MapError β → Client γ} {body : MapVersion → Client γ}
    (hnext : ∀ result, Safe R (next result))
    (h : ∀ version, map.engine.versionId version.tree = id → Safe R (body version)) :
    Safe R (map.knownVersion id next body) := by
  refine map.version_safe fun result hresult => ?_
  cases result with
  | error error => exact hnext _
  | ok found =>
    cases found with
    | none => exact hnext _
    | some version => exact h version (hresult version rfl)

theorem versions_commits {next : Except MapError (List MapVersion) → Client γ}
    (h : ∀ result, (next result).CommitsFrom R J) : (map.versions next).CommitsFrom R J :=
  .get fun _ => .list fun _ => h _

/-! ### The calls -/

theorem tryApply_safe {expected : Option (Option Cid)}
    {next : Except MapError UpdateAttempt → Client γ} (hdoes : ∀ roots roots', map.Unmanaged roots →
      (∀ id, expected = some id → (treeAt roots map.headName).map map.engine.versionId = id) →
      map.Edits mutations roots roots' → R roots roots') (hnext : ∀ result, Safe R (next result)) :
    Safe R (map.tryApply mutations expected timestampMillis next) := by
  intro J
  refine .begin (map.guard_commits hnext (loadNamedRoot_commits fun current => ?_))
  dsimp only
  split
  · exact .rollback (hnext _ _)
  · next hexpected =>
    have hid : ∀ id, expected = some id → current.map map.engine.versionId = id := by
      rintro id rfl
      simpa using Eq.symm (by simpa using hexpected)
    split
    · exact hnext _ _
    · next tree nodes hbatch =>
      refine stageNodes_commits ?_
      split
      · next hcurrent =>
        refine commit_commits (hnext _) (fun _ => hnext _) ?_
        rintro roots view ⟨⟨rfl, hguard⟩, rfl⟩
        exact hdoes _ _ hguard hid ⟨tree, nodes, hbatch, .inl ⟨hcurrent, rfl⟩⟩
      · refine map.publishVersion_commits hnext (publishNamedRoot_commits ?_)
        refine commit_commits (hnext _) (fun _ => hnext _) ?_
        rintro roots view ⟨mid, ⟨roots', ⟨⟨rfl, hguard⟩, rfl⟩, hversion⟩, hhead⟩
        exact hdoes _ _ hguard hid ⟨tree, nodes, hbatch, .inr ⟨mid, hversion, hhead⟩⟩

theorem apply_safe
    (hnext : ∀ result, Safe (Call.Does map (.apply mutations timestampMillis)) (next result)) :
    Safe (Call.Does map (.apply mutations timestampMillis))
      (map.applyAtMillis mutations timestampMillis next) := by
  refine retry_induction (P := Safe _) (fun _ => .failed) (fun _ => hnext _)
    (fun again hagain => map.tryApply_safe ?_ fun result => ?_) _ _
  · exact fun _ _ hguard _ hedits => ⟨hguard, hedits⟩
  · cases result with
    | error error => exact hnext _
    | ok attempt =>
      rcases attempt with ⟨previous, current⟩ | ⟨_ | current⟩ | conflict
      · exact hnext _
      · exact hnext _
      · exact hnext _
      · exact hagain conflict

theorem applyIf_safe {next : Except MapError VersionedMapUpdate → Client γ}
    (hnext : ∀ result,
      Safe (Call.Does map (.applyIf expected mutations timestampMillis)) (next result)) :
    Safe (Call.Does map (.applyIf expected mutations timestampMillis))
      (map.applyIfAtMillis expected mutations timestampMillis next) := by
  refine map.tryApply_safe ?_ fun result => ?_
  · exact fun _ _ hguard hid hedits => ⟨hguard, hid expected rfl, hedits⟩
  · cases result with
    | error error => exact hnext _
    | ok attempt =>
      cases attempt with
      | applied previous current => exact hnext _
      | unchanged current => exact hnext _
      | conflict conflict =>
        simp only [orReturn]
        exact map.head_safe fun _ => hnext _

theorem restoreIf_safe {target : Cid} {next : Except MapError VersionedMapUpdate → Client γ}
    (hnext : ∀ result,
      Safe (Call.Does map (.restoreIf expected target timestampMillis)) (next result)) :
    Safe (Call.Does map (.restoreIf expected target timestampMillis))
      (map.restoreIf expected target timestampMillis next) := by
  refine map.knownVersion_safe hnext fun version hversion J => ?_
  refine .begin (map.guard_commits hnext (loadNamedRoot_commits fun current => ?_))
  dsimp only
  split
  · exact .rollback (map.head_safe (fun _ => hnext _) _)
  · next hexpected =>
    split
    · next hcurrent =>
      refine .get fun _ => commit_commits (hnext _) (fun _ => map.head_safe (fun _ => hnext _)) ?_
      rintro roots view ⟨⟨rfl, hguard⟩, rfl⟩
      exact ⟨hguard, not_not.mp hexpected, _, hversion, .inl ⟨hcurrent, rfl⟩⟩
    · refine map.publishVersion_commits hnext (publishNamedRoot_commits ?_)
      refine commit_commits (hnext _) (fun _ => map.head_safe (fun _ => hnext _)) ?_
      rintro roots view ⟨mid, ⟨roots', ⟨⟨rfl, hguard⟩, rfl⟩, hset⟩, hhead⟩
      exact ⟨hguard, not_not.mp hexpected, _, hversion, .inr ⟨mid, hset, hhead⟩⟩

theorem rollbackTo_safe
    (hnext : ∀ result, Safe (Call.Does map (.rollbackTo id timestampMillis)) (next result)) :
    Safe (Call.Does map (.rollbackTo id timestampMillis))
      (map.rollbackTo id timestampMillis next) := by
  refine map.knownVersion_safe hnext fun target htarget => ?_
  refine retry_induction (P := Safe _) (fun _ => .failed) (fun _ => hnext _)
    (fun again hagain J => ?_) _ _
  refine .begin (map.guard_commits hnext (loadNamedRoot_commits fun current => ?_))
  split
  · exact hnext _ _
  · refine publishNamedRoot_commits (commit_commits (hnext _) (fun _ => hagain _) ?_)
    rintro roots view ⟨roots', ⟨⟨rfl, hguard⟩, -⟩, hhead⟩
    exact ⟨hguard, _, htarget, hhead⟩

theorem importAsHead_safe {bundle : SnapshotBundle}
    (hnext : ∀ result, Safe (Call.Does map (.importAsHead bundle timestampMillis)) (next result)) :
    Safe (Call.Does map (.importAsHead bundle timestampMillis))
      (map.importAsHeadAtMillis bundle timestampMillis next) := by
  unfold importAsHeadAtMillis
  split
  · exact hnext _
  · exact hnext _
  · split
    · exact hnext _
    · refine publishNodes_safe (retry_induction (P := Safe _) (fun _ => .failed) (fun _ => hnext _)
        (fun again hagain J => ?_) _ _)
      refine .begin (map.guard_commits hnext (loadNamedRoot_commits fun current => ?_))
      split
      · exact .rollback (hnext _ _)
      · refine map.publishVersion_commits hnext (publishNamedRoot_commits ?_)
        refine commit_commits (hnext _) (fun _ => hagain _) ?_
        rintro roots view ⟨mid, ⟨roots', ⟨⟨rfl, hguard⟩, -⟩, hset⟩, hhead⟩
        exact ⟨hguard, .inr ⟨mid, hset, hhead⟩⟩

theorem restoreVersions_commits (hnext : ∀ result, Safe R (next result))
    (h : body.CommitsFrom R fun roots view => ∃ view0, J roots view0 ∧
      map.Restores versions view0 view) :
    (map.restoreVersions now next body versions).CommitsFrom R J := by
  induction versions generalizing J with
  | nil =>
    refine h.mono ?_
    exact fun roots view hJ => ⟨view, hJ, rfl⟩
  | cons version versions ih =>
    refine map.publishVersion_commits hnext (ih (h.mono ?_))
    rintro roots view ⟨mid, ⟨view0, hJ, hset⟩, hrest⟩
    exact ⟨view0, hJ, mid, hset, hrest⟩

theorem importVersions_safe (hnext : ∀ result, Safe R (next result)) (h : Safe R body) :
    Safe R (map.importVersions next body versions) := by
  induction versions with
  | nil => exact h
  | cons version versions ih =>
    unfold importVersions
    split
    · exact hnext _
    · exact publishNodes_safe ih

theorem verifyVersions_ok {seen : List Cid} (h : verifyVersions engine seen versions = .ok ()) :
    (∀ version ∈ versions, engine.versionId version.bundle.tree = version.id ∧
      version.id ∉ seen) ∧ (versions.map (·.id)).Nodup := by
  induction versions generalizing seen with
  | nil => simp
  | cons version versions ih =>
    unfold verifyVersions at h
    split at h
    · cases h
    · next hseen =>
      split at h
      · cases h
      · cases h
      · dsimp only at h
        split at h
        · cases h
        · next hid =>
          obtain ⟨hids, hnodup⟩ := ih h
          refine ⟨fun other hother => ?_, nodup_cons.mpr ⟨fun hmem => ?_, hnodup⟩⟩
          · rcases mem_cons.mp hother with rfl | hother
            · exact ⟨not_not.mp hid, hseen⟩
            · exact ⟨(hids other hother).1, fun hmem => (hids other hother).2
                (.tail _ hmem)⟩
          · obtain ⟨other, hother, hsame⟩ := mem_map.mp hmem
            exact (hids other hother).2 (hsame ▸ mem_cons_self)

theorem verifyBackup_ok (h : verifyBackup engine backup = .ok ()) :
    (∀ version ∈ backup.versions, engine.versionId version.bundle.tree = version.id) ∧
      (backup.versions.map (·.id)).Nodup := by
  unfold verifyBackup at h
  split at h
  · cases h
  · next hversions =>
    obtain ⟨hids, hnodup⟩ := verifyVersions_ok hversions
    exact ⟨fun version hversion => (hids version hversion).1, hnodup⟩

theorem restoreBackup_safe
    (hnext : ∀ result, Safe (Call.Does map (.restoreBackup backup now)) (next result)) :
    Safe (Call.Does map (.restoreBackup backup now)) (map.restoreBackup backup now next) := by
  unfold restoreBackup
  split
  · exact hnext _
  · next hverify =>
    split
    · exact hnext _
    · refine map.importVersions_safe hnext fun J => ?_
      refine .begin (map.guard_commits hnext (loadNamedRoot_commits fun current => ?_))
      split
      · exact .rollback (hnext _ _)
      · next hcurrent =>
        refine map.restoreVersions_commits hnext ?_
        split
        · exact .failed
        · next version hfind =>
          refine publishNamedRoot_commits (commit_commits (hnext _) (fun _ => hnext _) ?_)
          rintro roots view ⟨mid, ⟨roots', ⟨⟨rfl, hguard⟩, rfl⟩, hrestores⟩, hhead⟩
          obtain ⟨hids, hnodup⟩ := verifyBackup_ok hverify
          refine ⟨hguard, by simpa using hcurrent, hids, hnodup, mid, hrestores, version, ?_, hhead⟩
          exact mem_reverse.mp (mem_of_find?_eq_some hfind)

/-- The removed roots so far: version roots, that of the head not among them. -/
theorem deleteVersions_commits (headTree : Tree) {ids : List Cid}
    (hids : ∀ id ∈ ids, id ≠ map.engine.versionId headTree)
    (h : body.CommitsFrom R fun roots view => ∃ view0, J roots view0 ∧
      ∀ name, view.get? name = view0.get? name ∨
        ∃ id, id ≠ map.engine.versionId headTree ∧ name = map.versionName id ∧
          view.get? name = none) : (map.deleteVersions body ids).CommitsFrom R J := by
  induction ids generalizing J with
  | nil =>
    refine h.mono ?_
    exact fun roots view hJ => ⟨view, hJ, fun _ => .inl rfl⟩
  | cons id ids ih =>
    have hrest : ∀ id ∈ ids, id ≠ map.engine.versionId headTree :=
      fun id hid => hids id (.tail _ hid)
    refine loadNamedRoot_commits fun root => ?_
    split
    · refine .stage (ih hrest (h.mono ?_))
      rintro roots view ⟨mid, ⟨view0, ⟨hJ, -⟩, rfl⟩, hview⟩
      refine ⟨view0, hJ, fun name => ?_⟩
      rcases hview name with hsame | hgone
      · by_cases hname : map.versionName id = name
        · refine .inr ⟨id, hids id mem_cons_self, hname.symm, ?_⟩
          rw [hsame, SortedMap.get?_set, if_pos hname]
        · rw [SortedMap.get?_set, if_neg hname] at hsame
          exact .inl hsame
      · exact .inr hgone
    · refine ih hrest (h.mono ?_)
      rintro roots view ⟨view0, ⟨hJ, -⟩, hview⟩
      exact ⟨view0, hJ, hview⟩

theorem pruneWith_safe {select : List MapVersion → Except MapError (List Cid)}
    {next : Except MapError VersionPruneResult → Client γ}
    (hdoes : ∀ roots roots', map.Unmanaged roots → map.Prunes roots roots' → R roots roots')
    (hnext : ∀ result, Safe R (next result)) : Safe R (map.pruneWith select next) := by
  refine retry_induction (P := Safe _) (fun _ => .failed) (fun _ => hnext _)
    (fun again hagain J => ?_) _ _
  refine .begin (map.guard_commits hnext (loadNamedRoot_commits fun current => ?_))
  split
  · refine .rollback (map.versions_commits fun result => ?_)
    cases result with
    | error error => exact hnext _ _
    | ok versions => exact hnext _ _
  · next headTree =>
    refine map.versions_commits fun result => ?_
    cases result with
    | error error => exact hnext _ _
    | ok versions =>
      unfold orReturn
      dsimp only
      split
      · exact .rollback (hnext _ _)
      · split
        · exact hnext _ _
        · next selected _ =>
          split
          · exact .rollback (hnext _ _)
          · refine map.deleteVersions_commits headTree ?_
              (commit_commits (hnext _) (fun _ => hagain _) ?_)
            · rintro id hid rfl
              obtain ⟨version, hversion, hsame⟩ := mem_map.mp hid
              have hdropped := (mem_filter.mp hversion).2
              simp [hsame] at hdropped
            · rintro roots view ⟨view0, ⟨⟨rfl, hguard⟩, hhead⟩, hview⟩
              exact hdoes _ _ hguard ⟨headTree, hhead, hview⟩

theorem openIndexed_safe {next : Except MapError Unit → Client γ}
    (hnext : ∀ result, Safe (Call.Does map (.openIndexed timestampMillis)) (next result)) :
    Safe (Call.Does map (.openIndexed timestampMillis)) (map.openIndexed timestampMillis next) := by
  have hload : Safe (Call.Does map (.openIndexed timestampMillis)) (map.loadState next) := by
    unfold loadState
    cases indexedCollectionRootName map.id with
    | error error => exact hnext _
    | ok name =>
      refine fun J => .get fun manifest => ?_
      split
      · exact hnext _ _
      · split
        · exact hnext _ _
        · exact hnext _ _
  unfold openIndexed commitCollectionRoot
  cases hname : indexedCollectionRootName map.id with
  | error error => exact hnext _
  | ok name =>
    refine fun J => .get fun manifest => ?_
    split
    · exact hload _
    · refine map.head_safe (fun head => ?_) J
      split
      · exact hnext _
      · split
        · exact hnext _
        · next state nodes _ =>
          refine publishNodes_safe fun J => .begin (.load fun current => ?_)
          dsimp only
          split
          · exact .rollback (hload _)
          · next hcurrent =>
            refine .load fun current' => ?_
            dsimp only
            split
            · exact .rollback (hload _)
            · refine .stage (commit_commits (hnext _) (fun _ => hload) ?_)
              rintro roots view ⟨roots', ⟨⟨rfl, hnone⟩, -⟩, rfl⟩
              refine ⟨name, state, hname, ?_, ?_, fun other hother => ?_⟩
              · simpa [hnone] using hcurrent
              · simp [treeAt, SortedMap.get?_set]
              · simp [SortedMap.get?_set, hother.symm]

/-- Every commit of a call does what the call does. -/
theorem Call.client_commits (call : Call) :
    (call.client map).CommitsFrom (call.Does map) fun roots view => view = roots := by
  have hprune : ∀ {R : NamedRoots → NamedRoots → Prop},
      (∀ roots roots', map.Unmanaged roots ∧ map.Prunes roots roots' → R roots roots') →
      ∀ select, Safe R (map.pruneWith select fun result =>
        (.ret (result.map Response.pruned) : Client (Except MapError Response))) :=
    fun hdoes _ => map.pruneWith_safe (fun _ _ hguard hprunes => hdoes _ _ ⟨hguard, hprunes⟩)
      fun _ _ => .ret _
  cases call with
  | apply mutations timestampMillis => exact map.apply_safe (fun _ _ => .ret _) _
  | applyIf expected mutations timestampMillis => exact map.applyIf_safe (fun _ _ => .ret _) _
  | restoreIf expected target timestampMillis => exact map.restoreIf_safe (fun _ _ => .ret _) _
  | rollbackTo id timestampMillis => exact map.rollbackTo_safe (fun _ _ => .ret _) _
  | importAsHead bundle timestampMillis => exact map.importAsHead_safe (fun _ _ => .ret _) _
  | restoreBackup backup now => exact map.restoreBackup_safe (fun _ _ => .ret _) _
  | keepLast count => exact hprune (fun _ _ h => h) _ _
  | keepFor nowMillis ageMillis => exact hprune (fun _ _ h => h) _ _
  | keepVersions ids => exact hprune (fun _ _ h => h) _ _
  | openIndexed timestampMillis => exact map.openIndexed_safe (fun _ _ => .ret _) _

end VersionedMap

end Prolly

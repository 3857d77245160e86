import Prolly.Transaction

/-!
# Prolly.FileStore

Transactions of the file store (`store/file.rs`). Nodes and named roots are files. A file is written
under another name and renamed, so a write that fails leaves the file as it was; which writes of
nodes and of roots fail is a parameter, the writes that restore a root succeed.

Root writes are applied one file at a time. When one of them fails, the roots written before it are
restored, newest first, from what was read before the first write.
-/

namespace Prolly

open List

/-- `FileNodeStoreError`, without the paths. -/
inductive FileNodeStoreError where
  | io (message : String)
  | invalidKey (length : Nat)
  | cidMismatch (expected actual : Cid)
  | manifest (message : String)
  deriving DecidableEq

abbrev FileResult (α : Type) := Except FileNodeStoreError α

/-- The files of a `FileNodeStore`: what reading the node of a CID and the root of a name gives. -/
structure FileNodeStore where
  nodes : Cid → FileResult (Option Bytes)
  roots : Bytes → FileResult (Option RootManifest)

/-- `TransactionNodeWrite`. -/
inductive TransactionNodeWrite where
  | upsert (key value : Bytes)
  | delete (key : Bytes)

/-- `RootCondition`. -/
structure RootCondition where
  name : Bytes
  expected : Option RootManifest

/-- `RootWrite`: a manifest is put under the name, or the name is deleted. -/
structure RootWrite where
  name : Bytes
  manifest : Option RootManifest

/-- `TransactionUpdate`. -/
inductive TransactionUpdate where
  | applied (nodesWritten rootsWritten : Nat)
  | conflict (conflict : TransactionConflict)

/-- The writes that fail, by their position in the transaction. -/
structure FileFaults where
  node : Nat → Option FileNodeStoreError
  root : Nat → Option FileNodeStoreError

namespace FileNodeStore

/-- `cid_from_node_key` and `validate_node_bytes`: the CID, and the bytes to write or nothing. -/
def validateNodeWrite (d : Digests) : TransactionNodeWrite → FileResult (Cid × Option Bytes)
  | .upsert key value => do
    let cid ← cidFromNodeKey key
    if d.sha256 value ≠ cid then .error (.cidMismatch cid (d.sha256 value))
    else return (cid, some value)
  | .delete key => return (← cidFromNodeKey key, none)
where
  cidFromNodeKey (key : Bytes) : FileResult Cid :=
    match Cid.ofBytes key with
    | some cid => .ok cid
    | none => .error (.invalidKey key.length)

def firstConflict (store : FileNodeStore) : List RootCondition →
    FileResult (Option TransactionConflict)
  | [] => .ok none
  | condition :: conditions => do
    let current ← store.roots condition.name
    if current ≠ condition.expected then
      return some ⟨condition.name, condition.expected, current⟩
    else store.firstConflict conditions

/-- The loop over node writes: a node that is there is not written again. -/
def writeNodes (faults : Nat → Option FileNodeStoreError) :
    Nat → List (Cid × Option Bytes) → FileNodeStore → FileResult Unit × FileNodeStore
  | _, [], store => (.ok (), store)
  | position, (cid, value) :: writes, store =>
    match store.nodes cid, value, faults position with
    | .error error, some _, _ => (.error error, store)
    | .ok (some _), some _, _ => writeNodes faults (position + 1) writes store
    | _, _, some error => (.error error, store)
    | _, _, none => writeNodes faults (position + 1) writes
        { store with nodes := Function.update store.nodes cid (.ok value) }

/-- `apply_root_write_unlocked`, and `restore_root_unlocked` with what the root was. -/
def writeRoot (store : FileNodeStore) (name : Bytes) (manifest : Option RootManifest) :
    FileNodeStore :=
  { store with roots := Function.update store.roots name (.ok manifest) }

/-- The loop over root writes, with the writes applied so far and what to restore them to, newest
first. -/
def writeRoots (faults : Nat → Option FileNodeStoreError)
    (snapshots : List (Bytes × Option RootManifest)) :
    Nat → List (Bytes × Option RootManifest) → List RootWrite → FileNodeStore →
      FileResult Unit × FileNodeStore
  | _, _, [], store => (.ok (), store)
  | position, applied, write :: writes, store =>
    match faults position with
    | some error =>
      (.error error, applied.foldl (fun store root => store.writeRoot root.1 root.2) store)
    | none =>
      let previous := (snapshots.find? (·.1 = write.name)).bind (·.2)
      writeRoots faults snapshots (position + 1) ((write.name, previous) :: applied) writes
        (store.writeRoot write.name write.manifest)

/-- `commit_transaction`. -/
def commitTransaction (d : Digests) (faults : FileFaults) (store : FileNodeStore)
    (nodeWrites : List TransactionNodeWrite) (rootConditions : List RootCondition)
    (rootWrites : List RootWrite) : FileResult TransactionUpdate × FileNodeStore :=
  match nodeWrites.mapM (validateNodeWrite d), store.firstConflict rootConditions with
  | .error error, _ => (.error error, store)
  | .ok _, .error error => (.error error, store)
  | .ok _, .ok (some conflict) => (.ok (.conflict conflict), store)
  | .ok validated, .ok none =>
    match writeNodes faults.node 0 validated store with
    | (.error error, store) => (.error error, store)
    | (.ok _, store) =>
      match rootWrites.mapM fun write => (store.roots write.name).map (write.name, ·) with
      | .error error => (.error error, store)
      | .ok snapshots =>
        let (result, store) := writeRoots faults.root snapshots 0 [] rootWrites store
        (result.map fun _ => .applied nodeWrites.length rootWrites.length, store)

/-! ### What the loops do to roots -/

variable {store : FileNodeStore} (faults : Nat → Option FileNodeStoreError)

theorem firstConflict_eq_none {conditions : List RootCondition}
    (h : store.firstConflict conditions = .ok none) :
    ∀ condition ∈ conditions, store.roots condition.name = .ok condition.expected := by
  induction conditions with
  | nil => simp
  | cons condition conditions ih =>
    obtain ⟨current, hcurrent, h⟩ := of_bind h
    split at h
    · cases h
    next hexpected =>
    rw [not_not] at hexpected
    exact forall_mem_cons.mpr ⟨hexpected ▸ hcurrent, ih h⟩

theorem writeNodes_roots (position : Nat) (writes : List (Cid × Option Bytes))
    (store : FileNodeStore) : (writeNodes faults position writes store).2.roots = store.roots := by
  fun_induction writeNodes faults position writes store with
  | case1 | case2 | case4 => rfl
  | case3 position writes store cid value previous hvalue ih => exact ih
  | case5 => assumption

variable {roots0 : Bytes → FileResult (Option RootManifest)}
  {applied snapshots : List (Bytes × Option RootManifest)} {writes : List RootWrite}

/-- Restoring every root that was written gives the roots back. -/
theorem restore_roots (happlied : ∀ root ∈ applied, roots0 root.1 = .ok root.2)
    (hrest : ∀ name, (∀ root ∈ applied, root.1 ≠ name) → store.roots name = roots0 name) :
    (applied.foldl (fun store root => store.writeRoot root.1 root.2) store).roots = roots0 := by
  induction applied generalizing store with
  | nil => exact funext fun name => hrest name (by simp)
  | cons root applied ih =>
    obtain ⟨hroot, happlied⟩ := forall_mem_cons.mp happlied
    refine ih happlied fun name hname => ?_
    by_cases h : name = root.1
    · rw [h, hroot]
      exact Function.update_self ..
    · exact (Function.update_of_ne h ..).trans
        (hrest name (forall_mem_cons.mpr ⟨Ne.symm h, hname⟩))

def afterWrites (roots : Bytes → FileResult (Option RootManifest)) (writes : List RootWrite) :
    Bytes → FileResult (Option RootManifest) :=
  writes.foldl (fun roots write => Function.update roots write.name (.ok write.manifest)) roots

/-- The last write of a name counts. -/
theorem afterWrites_apply (roots : Bytes → FileResult (Option RootManifest))
    (writes : List RootWrite) (name : Bytes) : afterWrites roots writes name =
      (writes.reverse.find? (·.name = name)).elim (roots name) fun write => .ok write.manifest := by
  induction writes using List.reverseRecOn with
  | nil => rfl
  | append_singleton writes write ih =>
    rw [afterWrites, foldl_append, reverse_append]
    by_cases h : write.name = name
    · simp [h]
    · simpa [h, Function.update_of_ne (Ne.symm h), afterWrites] using ih

theorem writeRoots_spec (position : Nat)
    (hsnapshots : ∀ write ∈ writes,
      roots0 write.name = .ok ((snapshots.find? (·.1 = write.name)).bind (·.2)))
    (happlied : ∀ root ∈ applied, roots0 root.1 = .ok root.2)
    (hrest : ∀ name, (∀ root ∈ applied, root.1 ≠ name) → store.roots name = roots0 name) :
    ∃ result store', writeRoots faults snapshots position applied writes store = (result, store') ∧
      (result = .ok () ∧ store'.roots = afterWrites store.roots writes ∨
        (∃ error, result = .error error) ∧ store'.roots = roots0) := by
  induction writes generalizing position applied store with
  | nil => exact ⟨_, _, rfl, .inl ⟨rfl, rfl⟩⟩
  | cons write writes ih =>
    obtain ⟨hwrite, hsnapshots⟩ := forall_mem_cons.mp hsnapshots
    rw [writeRoots]
    split
    · next error _ => exact ⟨_, _, rfl, .inr ⟨⟨error, rfl⟩, restore_roots happlied hrest⟩⟩
    · refine ih (position + 1) hsnapshots (forall_mem_cons.mpr ⟨hwrite, happlied⟩)
        fun name hname => ?_
      obtain ⟨hne, hname⟩ := forall_mem_cons.mp hname
      exact (Function.update_of_ne (Ne.symm hne) ..).trans (hrest name hname)

/-- What was read before the first write is found under every name that is written. -/
theorem find?_snapshots
    (h : (writes.mapM fun write => (store.roots write.name).map (write.name, ·)) = .ok snapshots) :
    ∀ write ∈ writes,
      store.roots write.name = .ok ((snapshots.find? (·.1 = write.name)).bind (·.2)) := by
  obtain ⟨hread, hfrom⟩ := of_mapM h
  intro write hwrite
  obtain ⟨snapshot, hsnapshot, hvalue⟩ := hread write hwrite
  cases hfind : snapshots.find? (·.1 = write.name) with
  | none =>
    obtain ⟨previous, -, rfl⟩ := map_eq_ok.mp hvalue
    simpa using List.find?_eq_none.mp hfind _ hsnapshot
  | some found =>
    have hname : found.1 = write.name := by simpa using List.find?_some hfind
    obtain ⟨write', -, hfound⟩ := hfrom found (mem_of_find?_eq_some hfind)
    obtain ⟨previous, hprevious, rfl⟩ := map_eq_ok.mp hfound
    exact hname ▸ hprevious

/-- A transaction is applied with all its conditions met and all its root writes in effect, or the
roots are as they were. -/
theorem commitTransaction_atomic (d : Digests) (faults : FileFaults) (store : FileNodeStore)
    (nodeWrites : List TransactionNodeWrite) (rootConditions : List RootCondition)
    (rootWrites : List RootWrite) :
    ∃ result store', store.commitTransaction d faults nodeWrites rootConditions rootWrites =
        (result, store') ∧
      (result = .ok (.applied nodeWrites.length rootWrites.length) ∧
          (∀ condition ∈ rootConditions, store.roots condition.name = .ok condition.expected) ∧
          (∀ name, store'.roots name = (rootWrites.reverse.find? (·.name = name)).elim
            (store.roots name) fun write => .ok write.manifest) ∨
        ((∃ conflict, result = .ok (.conflict conflict)) ∨ ∃ error, result = .error error) ∧
          store'.roots = store.roots) := by
  rw [commitTransaction]
  split
  · next error _ => exact ⟨_, _, rfl, .inr ⟨.inr ⟨error, rfl⟩, rfl⟩⟩
  · next error _ _ => exact ⟨_, _, rfl, .inr ⟨.inr ⟨error, rfl⟩, rfl⟩⟩
  · next conflict _ _ => exact ⟨_, _, rfl, .inr ⟨.inl ⟨conflict, rfl⟩, rfl⟩⟩
  next validated _ hconditions =>
  have hnodes := writeNodes_roots faults.node 0 validated store
  split
  · next error store' hwritten =>
    rw [hwritten] at hnodes
    exact ⟨_, _, rfl, .inr ⟨.inr ⟨error, rfl⟩, hnodes⟩⟩
  next store' hwritten =>
  rw [hwritten] at hnodes
  split
  · next error _ => exact ⟨_, _, rfl, .inr ⟨.inr ⟨error, rfl⟩, hnodes⟩⟩
  next snapshots hsnapshots =>
  obtain ⟨result, store'', hroots, hspec⟩ := writeRoots_spec faults.root 0
    (find?_snapshots hsnapshots) (forall_mem_nil _) (fun _ _ => rfl)
  rw [hroots]
  refine ⟨_, _, rfl, ?_⟩
  obtain ⟨rfl, heffect⟩ | ⟨⟨error, rfl⟩, hsame⟩ := hspec
  · refine .inl ⟨rfl, firstConflict_eq_none hconditions, fun name => ?_⟩
    rw [heffect, hnodes, afterWrites_apply]
  · exact .inr ⟨.inr ⟨error, rfl⟩, hsame.trans hnodes⟩

end FileNodeStore

end Prolly

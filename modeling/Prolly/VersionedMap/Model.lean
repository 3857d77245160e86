import Mathlib.Data.List.Sort
import Prolly.Boundary
import Prolly.Transaction

/-!
# Prolly.VersionedMap.Model

Versioned maps (`versioned_map.rs`): a map is a head root and a catalog of version roots, each
named by the identifier of the tree it holds. Every call is a client of the store, operation by
operation: what it reads in its transaction, what it reads outside of it, and its retries.

What the calls need of the trees is `MapEngine`. `batch` and the collection state write nodes;
they read only nodes under trees they are given, and a store that fails stops the client.
`IndexedMap::open` is here too: it makes the same map identifier an indexed collection.
-/

namespace Prolly

/-! ### Names -/

def asciiBytes (text : String) : Bytes := text.toList.map fun c => c.val.toUInt8

/-- A lowercase hexadecimal digit. -/
def hexDigit (digit : UInt8) : UInt8 := if digit < 10 then 48 + digit else 87 + digit

/-- `append_hex`, and `hex` of the collection state. -/
def hexBytes (bytes : Bytes) : Bytes :=
  bytes.flatMap fun byte : UInt8 => [hexDigit (byte >>> 4), hexDigit (byte &&& 15)]

/-- `Display` of `MapVersionId`. -/
def Cid.display (id : Cid) : String :=
  String.ofList ((hexBytes id.bytes).map fun byte => Char.ofNat byte.toNat)

/-- `SnapshotBundle`. -/
structure SnapshotBundle where
  tree : Tree
  nodes : List (Cid × Bytes)

/-- The parts of the engine that the calls use. -/
structure MapEngine where
  /-- `MapVersionId::for_tree`: the digest of the manifest of the tree. -/
  versionId : Tree → Cid
  /-- The format of `Prolly::config`. -/
  format : TreeFormat
  /-- `batch`: the tree and the nodes that are written for it. -/
  batch : Tree → List Mutation → Result (Tree × List (Bytes × Bytes))
  /-- `SnapshotBundle::verify`. -/
  verify : SnapshotBundle → Result Bool
  /-- `IndexedCollectionState::to_tree` of an empty collection. -/
  newState : Bytes → Result (Tree × List (Bytes × Bytes))
  /-- `IndexedCollectionState::from_tree`: the map the state belongs to. -/
  stateSource : Tree → Result Bytes

inductive MapError where
  | engine (error : Error)
  | invalidVersionedMap (message : String)
  /-- `InvalidVersionedMap` for versions that a retention asks for and the catalog lacks. -/
  | unknownVersions (missing : List Cid)
  | invalidIndexDefinition (reason : String)
  | indexesRequireIndexedMap (mapId : Bytes)
  | indexFormatUnsupported
  | transactionConflict (conflict : TransactionConflict)
  deriving DecidableEq

/-- `MapVersion`. -/
structure MapVersion where
  id : Cid
  tree : Tree
  createdAtMillis : Option Nat
  isHead : Bool
  deriving DecidableEq

/-- `VersionedMapUpdate`. -/
inductive VersionedMapUpdate where
  | applied (previous : Option Cid) (current : MapVersion)
  | unchanged (current : Option MapVersion)
  | conflict (current : Option MapVersion)
  deriving DecidableEq

/-- `UpdateAttempt`. -/
inductive UpdateAttempt where
  | applied (previous : Option Cid) (current : MapVersion)
  | unchanged (current : Option MapVersion)
  | conflict (conflict : TransactionConflict)

/-- `VersionPruneResult`. -/
structure VersionPruneResult where
  retained : List Cid := []
  removed : List Cid := []
  deriving DecidableEq

/-- `MapBackupVersion`. -/
structure MapBackupVersion where
  id : Cid
  createdAtMillis : Option Nat
  bundle : SnapshotBundle

/-- `VersionedMapBackup`. -/
structure VersionedMapBackup where
  mapId : Bytes
  head : Cid
  versions : List MapBackupVersion

/-- `VersionedMap`. -/
structure VersionedMap where
  engine : MapEngine
  id : Bytes

/-- `indexed_collection_root_name`. -/
def indexedCollectionRootName (sourceMapId : Bytes) : Except MapError Bytes :=
  if sourceMapId = [] then
    .error (.invalidIndexDefinition "indexed source map ID must not be empty")
  else .ok (0 :: asciiBytes "prolly/indexed-collection/" ++ hexBytes sourceMapId ++
    asciiBytes "/state")

namespace VersionedMap

variable (map : VersionedMap)

/-- The first of `versioned_map_names`. -/
def rootPrefix : Bytes := asciiBytes "maps/versioned/" ++ hexBytes map.id

/-- `head_name`. -/
def headName : Bytes := map.rootPrefix ++ asciiBytes "/head"

/-- `versions_prefix`. -/
def versionsPrefix : Bytes := map.rootPrefix ++ asciiBytes "/versions/"

/-- `version_name`. -/
def versionName (id : Cid) : Bytes := map.versionsPrefix ++ id.bytes

/-- `create`. -/
def create : Tree := ⟨none, map.engine.format⟩

/-- `MapVersion::new`. -/
def mapVersion (tree : Tree) (createdAtMillis : Option Nat) (isHead : Bool) : MapVersion :=
  ⟨map.engine.versionId tree, tree, createdAtMillis, isHead⟩

/-! ### Reads outside of a transaction -/

variable {α β γ : Type}

/-- The operator `?`: an error is returned. -/
def orReturn (next : Except MapError β → Client γ) (body : α → Client γ) :
    Except MapError α → Client γ
  | .error error => next (.error error)
  | .ok value => body value

/-- `head`. -/
def head (next : Option MapVersion → Client γ) : Client γ :=
  .get map.headName fun manifest => next (manifest.map fun manifest =>
    map.mapVersion manifest.toTree (manifest.updatedAtMillis.or manifest.createdAtMillis) true)

/-- `version`. -/
def version (id : Cid) (next : Except MapError (Option MapVersion) → Client γ) : Client γ :=
  .get (map.versionName id) fun manifest =>
    match manifest with
    | none => next (.ok none)
    | some manifest =>
      let actual := map.engine.versionId manifest.toTree
      if actual ≠ id then
        next (.error (.invalidVersionedMap
          ("catalog root does not match async version " ++ id.display)))
      else map.head fun head => next (.ok (some
        ⟨actual, manifest.toTree, manifest.createdAtMillis, head.any (·.id = id)⟩))

/-- `version`, with an error for a version that is not there. -/
def knownVersion (id : Cid) (next : Except MapError β → Client γ)
    (body : MapVersion → Client γ) : Client γ :=
  map.version id <| orReturn next fun version =>
    match version with
    | none => next (.error (.invalidVersionedMap ("unknown map version " ++ id.display)))
    | some version => body version

/-- A named root as an entry of the catalog, unless it is another root. -/
def catalogEntry (headId : Option Cid) (named : Bytes × RootManifest) :
    Option (Except MapError MapVersion) :=
  if map.versionsPrefix <+: named.1 then
    let suffix := named.1.drop map.versionsPrefix.length
    let tree := named.2.toTree
    let actual := map.engine.versionId tree
    some <|
      if suffix.length ≠ 32 then
        .error (.invalidVersionedMap
          ("invalid version root name under " ++ toString map.versionsPrefix))
      else if actual.bytes ≠ suffix then
        .error (.invalidVersionedMap
          ("version catalog key does not match tree content: " ++ actual.display))
      else .ok ⟨actual, tree, named.2.createdAtMillis, headId = some actual⟩
  else none

/-- The order of `versions`: the newest first, those without a time last, and then by
identifier. -/
def newestFirst (a b : MapVersion) : Bool :=
  match a.createdAtMillis, b.createdAtMillis with
  | some a', some b' => if a' = b' then a.id.bytes ≤ b.id.bytes else b' < a'
  | some _, none => true
  | none, some _ => false
  | none, none => a.id.bytes ≤ b.id.bytes

/-- `versions`. -/
def versions (next : Except MapError (List MapVersion) → Client γ) : Client γ :=
  map.head fun head => .list fun roots =>
    next (((roots.entries.filterMap (map.catalogEntry (head.map (·.id)))).mapM fun entry =>
      entry).map
      (List.insertionSort fun a b => newestFirst a b))

/-! ### Parts of the transactions -/

/-- `guard_managed_map_write`. -/
def guardManagedMapWrite (next : Except MapError Unit → Client γ) : Client γ :=
  match indexedCollectionRootName map.id with
  | .error error => next (.error error)
  | .ok name => Client.loadNamedRoot name fun root =>
    next (if root.isSome then .error (.indexesRequireIndexedMap map.id) else .ok ())

/-- A version root in the transaction: it is published unless it is there, and a root with
another tree under its name is an error. -/
def publishVersion (id : Cid) (tree : Tree) (timestampMillis : Nat) (collision : String)
    (next : Except MapError Unit → Client γ) : Client γ :=
  Client.loadNamedRoot (map.versionName id) fun existing =>
    match existing with
    | some existing =>
      if existing ≠ tree then .rollback (next (.error (.invalidVersionedMap collision)))
      else next (.ok ())
    | none =>
      Client.publishNamedRootAtMillis (map.versionName id) tree timestampMillis (next (.ok ()))

/-- Nodes that the transaction writes. -/
def stageNodes (nodes : List (Bytes × Bytes)) (next : Client γ) : Client γ :=
  nodes.foldr (fun node rest => .stageData node.1 (some node.2) rest) next

/-- `publish_nodes`. -/
def publishNodes (nodes : List (Bytes × Bytes)) (next : Client γ) : Client γ :=
  nodes.foldr (fun node rest => .publish node.1 node.2 rest) next

/-- `DEFAULT_VERSIONED_MAP_RETRIES`. -/
def defaultVersionedMapRetries : Nat := 8

/-- A loop of attempts; the last conflict is the error when none are left. -/
def retry (next : Except MapError β → Client γ)
    (attempt : (TransactionConflict → Client γ) → Client γ) :
    Nat → Option TransactionConflict → Client γ
  | 0, some conflict => next (.error (.transactionConflict conflict))
  | 0, none => .failed
  | attempts + 1, _ => attempt fun conflict => retry next attempt attempts (some conflict)

/-! ### Updates -/

/-- `try_apply`. -/
def tryApply (mutations : List Mutation) (expected : Option (Option Cid)) (timestampMillis : Nat)
    (next : Except MapError UpdateAttempt → Client γ) : Client γ :=
  .begin <| map.guardManagedMapWrite <| orReturn next fun _ =>
  Client.loadNamedRoot map.headName fun currentTree =>
    let currentId := currentTree.map map.engine.versionId
    if expected.any (· ≠ currentId) then
      .rollback (next (.ok (.conflict ⟨map.headName, none, none⟩)))
    else
      match map.engine.batch (currentTree.getD map.create) mutations with
      | .error error => next (.error (.engine error))
      | .ok (tree, nodes) =>
        stageNodes nodes <|
        if currentTree = some tree then
          .commit fun outcome =>
            match outcome with
            | none => next (.ok (.unchanged (some (map.mapVersion tree none true))))
            | some conflict => next (.ok (.conflict conflict))
        else
          let nextId := map.engine.versionId tree
          map.publishVersion nextId tree timestampMillis
            ("content identifier collision for version " ++ nextId.display) <|
          orReturn next fun _ =>
          Client.publishNamedRootAtMillis map.headName tree timestampMillis <|
          .commit fun outcome =>
            match outcome with
            | none => next (.ok (.applied currentId
                (map.mapVersion tree (some timestampMillis) true)))
            | some conflict => next (.ok (.conflict conflict))

/-- `apply_at_millis`. -/
def applyAtMillis (mutations : List Mutation) (timestampMillis : Nat)
    (next : Except MapError MapVersion → Client γ) : Client γ :=
  retry next (fun again => map.tryApply mutations none timestampMillis <|
    orReturn next fun attempt =>
      match attempt with
      | .applied _ current => next (.ok current)
      | .unchanged (some current) => next (.ok current)
      | .unchanged none =>
        next (.error (.invalidVersionedMap "empty update did not initialize the index"))
      | .conflict conflict => again conflict) defaultVersionedMapRetries none

/-- `apply_if_at_millis`. -/
def applyIfAtMillis (expected : Option Cid) (mutations : List Mutation) (timestampMillis : Nat)
    (next : Except MapError VersionedMapUpdate → Client γ) : Client γ :=
  map.tryApply mutations (some expected) timestampMillis <| orReturn next fun attempt =>
    match attempt with
    | .applied previous current => next (.ok (.applied previous current))
    | .unchanged current => next (.ok (.unchanged current))
    | .conflict _ => map.head fun current => next (.ok (.conflict current))

/-- `publish_tree_if`. -/
def publishTreeIf (expected : Option Cid) (tree : Tree) (timestampMillis : Nat)
    (next : Except MapError VersionedMapUpdate → Client γ) : Client γ :=
  .begin <| map.guardManagedMapWrite <| orReturn next fun _ =>
  Client.loadNamedRoot map.headName fun currentTree =>
    let currentId := currentTree.map map.engine.versionId
    if currentId ≠ expected then
      .rollback <| map.head fun current => next (.ok (.conflict current))
    else if currentTree = some tree then
      map.head fun current => .commit fun outcome =>
        match outcome with
        | none => next (.ok (.unchanged current))
        | some _ => map.head fun current => next (.ok (.conflict current))
    else
      let id := map.engine.versionId tree
      map.publishVersion id tree timestampMillis
        ("content identifier collision for merged version " ++ id.display) <|
      orReturn next fun _ =>
      Client.publishNamedRootAtMillis map.headName tree timestampMillis <|
      .commit fun outcome =>
        match outcome with
        | none => next (.ok (.applied currentId
            (map.mapVersion tree (some timestampMillis) true)))
        | some _ => map.head fun current => next (.ok (.conflict current))

/-- `restore_if`. -/
def restoreIf (expected : Option Cid) (target : Cid) (timestampMillis : Nat)
    (next : Except MapError VersionedMapUpdate → Client γ) : Client γ :=
  map.knownVersion target next fun target =>
    map.publishTreeIf expected target.tree timestampMillis next

/-- `rollback_to`: the version root is read before the transactions and is not among the roots
they check. -/
def rollbackTo (id : Cid) (timestampMillis : Nat) (next : Except MapError MapVersion → Client γ) :
    Client γ :=
  map.knownVersion id next fun target =>
    retry next (fun again =>
      .begin <| map.guardManagedMapWrite <| orReturn next fun _ =>
      Client.loadNamedRoot map.headName fun current =>
        if current = some target.tree then next (.ok { target with isHead := true })
        else
          Client.publishNamedRootAtMillis map.headName target.tree timestampMillis <|
          .commit fun outcome =>
            match outcome with
            | none => next (.ok { target with isHead := true })
            | some conflict => again conflict) defaultVersionedMapRetries none

/-! ### Imports -/

/-- `import_snapshot` of a verified bundle. -/
def importSnapshot (bundle : SnapshotBundle) (next : Client γ) : Client γ :=
  publishNodes (bundle.nodes.map fun node => (node.1.bytes, node.2)) next

/-- `import_as_head_at_millis`. -/
def importAsHeadAtMillis (bundle : SnapshotBundle) (timestampMillis : Nat)
    (next : Except MapError MapVersion → Client γ) : Client γ :=
  match map.engine.verify bundle with
  | .error error => next (.error (.engine error))
  | .ok false => next (.error (.invalidVersionedMap "snapshot bundle is not self-contained"))
  | .ok true =>
    if bundle.tree.format ≠ map.engine.format then
      next (.error (.invalidVersionedMap
        "snapshot config does not match the managed map engine"))
    else
      let tree := bundle.tree
      let id := map.engine.versionId tree
      let imported := map.mapVersion tree (some timestampMillis) true
      importSnapshot bundle <| retry next (fun again =>
        .begin <| map.guardManagedMapWrite <| orReturn next fun _ =>
        Client.loadNamedRoot map.headName fun current =>
          if current = some tree then .rollback (next (.ok imported))
          else
            map.publishVersion id tree timestampMillis
              ("content identifier collision for imported version " ++ id.display) <|
            orReturn next fun _ =>
            Client.publishNamedRootAtMillis map.headName tree timestampMillis <|
            .commit fun outcome =>
              match outcome with
              | none => next (.ok imported)
              | some conflict => again conflict) defaultVersionedMapRetries none

/-- `VersionedMapBackup::verify`, after the versions seen so far. -/
def verifyVersions (engine : MapEngine) : List Cid → List MapBackupVersion → Except MapError Unit
  | _, [] => .ok ()
  | seen, version :: versions =>
    if version.id ∈ seen then
      .error (.invalidVersionedMap
        ("backup contains duplicate version " ++ version.id.display))
    else
      match engine.verify version.bundle with
      | .error error => .error (.engine error)
      | .ok false => .error (.invalidVersionedMap
          ("backup version " ++ version.id.display ++ " is not self-contained"))
      | .ok true =>
        let actual := engine.versionId version.bundle.tree
        if actual ≠ version.id then
          .error (.invalidVersionedMap
            ("backup version " ++ version.id.display ++ " contains tree " ++ actual.display))
        else verifyVersions engine (version.id :: seen) versions

/-- `VersionedMapBackup::verify`. -/
def verifyBackup (engine : MapEngine) (backup : VersionedMapBackup) : Except MapError Unit :=
  match verifyVersions engine [] backup.versions with
  | .error error => .error error
  | .ok () =>
    if backup.versions.any (·.id = backup.head) then .ok ()
    else .error (.invalidVersionedMap
      ("backup head " ++ backup.head.display ++ " is absent from its catalog"))

/-- The bundles of a backup are imported one after another. -/
def importVersions (next : Except MapError MapVersion → Client γ) (body : Client γ) :
    List MapBackupVersion → Client γ
  | [] => body
  | version :: versions =>
    if version.bundle.tree.format ≠ map.engine.format then
      next (.error (.invalidVersionedMap
        ("backup version " ++ version.id.display ++ " uses a different tree config")))
    else importSnapshot version.bundle (importVersions next body versions)

/-- The version roots of a backup, in the transaction; times that are missing are `now`. -/
def restoreVersions (now : Nat) (next : Except MapError MapVersion → Client γ) (body : Client γ) :
    List MapBackupVersion → Client γ
  | [] => body
  | version :: versions =>
    map.publishVersion version.id version.bundle.tree (version.createdAtMillis.getD now)
      ("target version root " ++ version.id.display ++ " contains different content") <|
    orReturn next fun _ => restoreVersions now next body versions

/-- `restore_backup`. The head is the last version with its identifier; a verified backup has
one. -/
def restoreBackup (backup : VersionedMapBackup) (now : Nat)
    (next : Except MapError MapVersion → Client γ) : Client γ :=
  match verifyBackup map.engine backup with
  | .error error => next (.error error)
  | .ok () =>
    if backup.mapId ≠ map.id then
      next (.error (.invalidVersionedMap ("backup map id " ++ toString backup.mapId ++
        " does not match target " ++ toString map.id)))
    else
      map.importVersions next (
        .begin <| map.guardManagedMapWrite <| orReturn next fun _ =>
        Client.loadNamedRoot map.headName fun current =>
          if current.isSome then
            .rollback (next (.error (.invalidVersionedMap
              "restore target is already initialized")))
          else
            map.restoreVersions now next (
              match backup.versions.reverse.find? (·.id = backup.head) with
              | none => .failed
              | some version =>
                Client.publishNamedRootAtMillis map.headName version.bundle.tree
                  (version.createdAtMillis.getD now) <|
                .commit fun outcome =>
                  match outcome with
                  | none => next (.ok
                      ⟨version.id, version.bundle.tree, version.createdAtMillis, true⟩)
                  | some conflict => next (.error (.transactionConflict conflict)))
              backup.versions) backup.versions

/-! ### Retention -/

/-- The version roots to remove, in the transaction. -/
def deleteVersions (body : Client γ) : List Cid → Client γ
  | [] => body
  | id :: ids =>
    Client.loadNamedRoot (map.versionName id) fun root =>
      if root.isSome then
        Client.deleteNamedRoot (map.versionName id) (deleteVersions body ids)
      else deleteVersions body ids

/-- `prune_with`. -/
def pruneWith (select : List MapVersion → Except MapError (List Cid))
    (next : Except MapError VersionPruneResult → Client γ) : Client γ :=
  retry next (fun again =>
    .begin <| map.guardManagedMapWrite <| orReturn next fun _ =>
    Client.loadNamedRoot map.headName fun headTree =>
      match headTree with
      | none => .rollback <| map.versions <| orReturn next fun versions =>
        next (if versions = [] then .ok {}
          else .error (.invalidVersionedMap "version roots exist without a current head"))
      | some headTree =>
        let headId := map.engine.versionId headTree
        map.versions <| orReturn next fun versions =>
        if !versions.any (·.id = headId) then
          .rollback (next (.error (.invalidVersionedMap
            ("current head " ++ headId.display ++ " is absent from the version catalog"))))
        else
          orReturn next (fun selected =>
            let retainedIds := headId :: selected
            let retained := (versions.filter (·.id ∈ retainedIds)).map (·.id)
            let removed := (versions.filter (·.id ∉ retainedIds)).map (·.id)
            if removed = [] then .rollback (next (.ok ⟨retained, removed⟩))
            else
              map.deleteVersions (.commit fun outcome =>
                match outcome with
                | none => next (.ok ⟨retained, removed⟩)
                | some conflict => again conflict) removed) (select versions))
    defaultVersionedMapRetries none

/-- `keep_last`. -/
def keepLast (count : Nat) (next : Except MapError VersionPruneResult → Client γ) : Client γ :=
  map.pruneWith (fun versions => .ok ((versions.take count).map (·.id))) next

/-- `keep_for_at`; a version without a time is kept. -/
def keepForAt (nowMillis ageMillis : Nat) (next : Except MapError VersionPruneResult → Client γ) :
    Client γ :=
  map.pruneWith (fun versions => .ok ((versions.filter fun version =>
    version.createdAtMillis.all (nowMillis - min ageMillis u64Max ≤ ·)).map (·.id))) next

/-- `keep_versions`. -/
def keepVersions (ids : List Cid) (next : Except MapError VersionPruneResult → Client γ) :
    Client γ :=
  map.pruneWith (fun versions =>
    let missing := ids.filter (· ∉ versions.map (·.id))
    if missing ≠ [] then .error (.unknownVersions missing) else .ok ids) next

/-! ### Indexed collections -/

/-- `load_state`. -/
def loadState (next : Except MapError Unit → Client γ) : Client γ :=
  orReturn next (fun name => .get name fun manifest =>
    match manifest with
    | none => next (.error (.invalidVersionedMap "indexed collection state root is absent"))
    | some manifest =>
      match map.engine.stateSource manifest.toTree with
      | .error error => next (.error (.engine error))
      | .ok source =>
        next (if source ≠ map.id then .error (.invalidVersionedMap
          "indexed collection state belongs to another source") else .ok ()))
    (indexedCollectionRootName map.id)

/-- `commit_collection_root`. -/
def commitCollectionRoot (expected : Option Tree) (candidate : Tree) (timestampMillis : Nat)
    (next : Except MapError Bool → Client γ) : Client γ :=
  orReturn next (fun name => .begin <|
    Client.compareAndSwapNamedRootAtMillis name expected (some candidate) timestampMillis
      fun update =>
        match update with
        | .conflict _ => .rollback (next (.ok false))
        | .applied => .commit fun outcome => next (.ok outcome.isNone))
    (indexedCollectionRootName map.id)

/-- `IndexedMap::open`, which is `initialize_or_load`: the head of the map is looked for
before the transaction. -/
def openIndexed (timestampMillis : Nat) (next : Except MapError Unit → Client γ) : Client γ :=
  orReturn next (fun name => .get name fun manifest =>
    if manifest.isSome then map.loadState next
    else map.head fun head =>
      if head.isSome then next (.error .indexFormatUnsupported)
      else
        match map.engine.newState map.id with
        | .error error => next (.error (.engine error))
        | .ok (state, nodes) =>
          publishNodes nodes <|
          map.commitCollectionRoot none state timestampMillis <|
          orReturn next fun applied =>
            if applied then next (.ok ()) else map.loadState next)
    (indexedCollectionRootName map.id)

/-! ### Calls -/

inductive Call where
  | apply (mutations : List Mutation) (timestampMillis : Nat)
  | applyIf (expected : Option Cid) (mutations : List Mutation) (timestampMillis : Nat)
  | restoreIf (expected : Option Cid) (target : Cid) (timestampMillis : Nat)
  | rollbackTo (id : Cid) (timestampMillis : Nat)
  | importAsHead (bundle : SnapshotBundle) (timestampMillis : Nat)
  | restoreBackup (backup : VersionedMapBackup) (now : Nat)
  | keepLast (count : Nat)
  | keepFor (nowMillis ageMillis : Nat)
  | keepVersions (ids : List Cid)
  | openIndexed (timestampMillis : Nat)

/-- What a call returns. -/
inductive Response where
  | version (version : MapVersion)
  | update (update : VersionedMapUpdate)
  | pruned (result : VersionPruneResult)
  | opened
  deriving DecidableEq

def Call.client : Call → Client (Except MapError Response)
  | .apply mutations timestampMillis =>
    map.applyAtMillis mutations timestampMillis fun result => .ret (result.map .version)
  | .applyIf expected mutations timestampMillis =>
    map.applyIfAtMillis expected mutations timestampMillis fun result =>
      .ret (result.map .update)
  | .restoreIf expected target timestampMillis =>
    map.restoreIf expected target timestampMillis fun result => .ret (result.map .update)
  | .rollbackTo id timestampMillis =>
    map.rollbackTo id timestampMillis fun result => .ret (result.map .version)
  | .importAsHead bundle timestampMillis =>
    map.importAsHeadAtMillis bundle timestampMillis fun result => .ret (result.map .version)
  | .restoreBackup backup now =>
    map.restoreBackup backup now fun result => .ret (result.map .version)
  | .keepLast count => map.keepLast count fun result => .ret (result.map .pruned)
  | .keepFor nowMillis ageMillis =>
    map.keepForAt nowMillis ageMillis fun result => .ret (result.map .pruned)
  | .keepVersions ids => map.keepVersions ids fun result => .ret (result.map .pruned)
  | .openIndexed timestampMillis =>
    map.openIndexed timestampMillis fun result => .ret (result.map fun _ => .opened)

end VersionedMap

end Prolly

import Prolly.Lib.Serializable
import Prolly.Store

/-!
# Prolly.Transaction

Named roots and strict transactions over them (`manifest.rs`, `transaction.rs`,
`store/memory.rs`).

The store, the overlay of a transaction and the commit are those of `Optimistic`, at the
cells of `MemStore`: nodes under their keys, and manifests under their names. Only named
roots are checked at a commit. The named-root functions of a transaction are the functions of
`AsyncProlly` over the overlay, so that a publication reads the root it replaces.

A batch of ordered reads asks the store for its names one at a time and notes the answers at
the end. Nobody else sees when they are noted, so it is a sequence of reads here.
-/

namespace Prolly

open Optimistic (Prog)

/-- `RootManifest`. -/
structure RootManifest where
  root : Option Cid
  format : TreeFormat
  createdAtMillis : Option Nat := none
  updatedAtMillis : Option Nat := none
  deriving DecidableEq

/-- `RootManifest::to_tree`. -/
def RootManifest.toTree (manifest : RootManifest) : Tree := ⟨manifest.root, manifest.format⟩

/-- `RootManifest::from_tree_with_timestamps_millis`. -/
def RootManifest.fromTree (tree : Tree) (created updated : Option Nat) : RootManifest :=
  ⟨tree.root, tree.format, created, updated⟩

/-- The manifest that replaces one: the time of creation is kept. -/
def RootManifest.replacing (current : Option RootManifest) (timestampMillis : Nat) (tree : Tree) :
    RootManifest :=
  .fromTree tree (some ((current.bind createdAtMillis).getD timestampMillis)) (some timestampMillis)

@[simp] theorem RootManifest.toTree_replacing (current : Option RootManifest)
    (timestampMillis : Nat)
    (tree : Tree) : (RootManifest.replacing current timestampMillis tree).toTree = tree := rfl

abbrev NamedRoots := SortedMap Bytes RootManifest

def treeAt (roots : NamedRoots) (name : Bytes) : Option Tree :=
  (roots.get? name).map RootManifest.toTree

/-- `MemStore`. -/
abbrev MemStore := Optimistic.Store Bytes Bytes RootManifest

abbrev Client (β : Type) := Prog Bytes Bytes RootManifest β

/-- `TransactionConflict`. -/
abbrev TransactionConflict := Optimistic.Conflict Bytes RootManifest

/-- `NamedRootUpdate`. -/
inductive NamedRootUpdate where
  | applied
  | conflict (current : Option Tree)
  deriving DecidableEq

namespace Client

variable {β : Type}

/-- `load_named_root`. -/
def loadNamedRoot (name : Bytes) (next : Option Tree → Client β) : Client β :=
  .load name fun manifest => next (manifest.map RootManifest.toTree)

/-- `load_named_roots_ordered`, after the roots read so far. -/
def loadNamedRootsOrdered (next : List (Option Tree) → Client β) :
    List Bytes → List (Option Tree) → Client β
  | [], roots => next roots
  | name :: names, roots =>
    loadNamedRoot name fun root => loadNamedRootsOrdered next names (roots ++ [root])

/-- `publish_named_root_at_millis`. -/
def publishNamedRootAtMillis (name : Bytes) (tree : Tree) (timestampMillis : Nat)
    (next : Client β) : Client β :=
  .load name fun manifest => .stage name (some (.replacing manifest timestampMillis tree)) next

/-- `delete_named_root`. -/
def deleteNamedRoot (name : Bytes) (next : Client β) : Client β := .stage name none next

/-- `compare_and_swap_root` of the overlay. -/
def compareAndSwapRoot (name : Bytes) (expected new : Option RootManifest)
    (next : NamedRootUpdate → Client β) : Client β :=
  .load name fun current =>
    if current ≠ expected then next (.conflict (current.map RootManifest.toTree))
    else .stage name new (next .applied)

/-- `compare_and_swap_named_root_at_millis`. -/
def compareAndSwapNamedRootAtMillis (name : Bytes) (expected new : Option Tree)
    (timestampMillis : Nat) (next : NamedRootUpdate → Client β) : Client β :=
  .load name fun current =>
    if current.map RootManifest.toTree ≠ expected then
      next (.conflict (current.map RootManifest.toTree))
    else compareAndSwapRoot name current (new.map (.replacing current timestampMillis)) next

end Client

/-! ### Transactions -/

/-- What a transaction does with a name, as its caller sees it: a root it is told, or one it
stages. -/
inductive RootAccess where
  | read (name : Bytes) (root : Option Tree)
  | staged (name : Bytes) (root : Option Tree)
  deriving DecidableEq

/-- The accesses of a transaction, the last one first. -/
abbrev History := List RootAccess

/-- The root last read or staged under a name. -/
def latest (name : Bytes) : History → Option (Option Tree)
  | [] => none
  | .read n root :: earlier => if n = name then some root else latest name earlier
  | .staged n root :: earlier => if n = name then some root else latest name earlier

/-- Every read finds the root last read or staged under its name: the one staged last, or else the
one of every other read. -/
def ReadsLatest : History → Prop
  | [] => True
  | .read name root :: earlier => (∀ known ∈ latest name earlier, root = known) ∧
    ReadsLatest earlier
  | .staged _ _ :: earlier => ReadsLatest earlier

/-- The accesses of a compare-and-swap, by its answer. -/
def swapAccesses (name : Bytes) (expected new : Option Tree) : NamedRootUpdate → History
  | .applied => [.staged name new, .read name expected]
  | .conflict current => [.read name current]

/-- A transaction: what it does next, given the answers so far. -/
inductive Transaction where
  | loadNamedRoot (name : Bytes) (next : Option Tree → Transaction)
  | loadNamedRootsOrdered (names : List Bytes) (next : List (Option Tree) → Transaction)
  | publishNamedRootAtMillis (name : Bytes) (tree : Tree) (timestampMillis : Nat)
      (next : Transaction)
  | deleteNamedRoot (name : Bytes) (next : Transaction)
  | compareAndSwapNamedRootAtMillis (name : Bytes) (expected new : Option Tree)
      (timestampMillis : Nat) (next : NamedRootUpdate → Transaction)
  /-- A node that `put`, `delete` or `batch` writes. -/
  | putNode (key value : Bytes) (next : Transaction)
  | rollback
  | commit

/-- How a transaction ended. -/
inductive TransactionOutcome where
  | applied
  | conflict (conflict : TransactionConflict)
  | rolledBack
  deriving DecidableEq

/-- What the caller of a transaction has seen. -/
structure TransactionResult where
  history : History
  outcome : TransactionOutcome
  deriving DecidableEq

namespace Transaction

/-- The transaction over the overlay, with what its caller has seen so far. -/
def client : Transaction → History → Client TransactionResult
  | .loadNamedRoot name next, history =>
    Client.loadNamedRoot name fun root => (next root).client (.read name root :: history)
  | .loadNamedRootsOrdered names next, history =>
    Client.loadNamedRootsOrdered (fun roots =>
      (next roots).client ((names.zipWith .read roots).reverse ++ history)) names []
  | .publishNamedRootAtMillis name tree timestampMillis next, history =>
    Client.publishNamedRootAtMillis name tree timestampMillis
      (next.client (.staged name (some tree) :: history))
  | .deleteNamedRoot name next, history =>
    Client.deleteNamedRoot name (next.client (.staged name none :: history))
  | .compareAndSwapNamedRootAtMillis name expected new timestampMillis next, history =>
    Client.compareAndSwapNamedRootAtMillis name expected new timestampMillis fun update =>
      (next update).client (swapAccesses name expected new update ++ history)
  | .putNode key value next, history => .stageData key (some value) (next.client history)
  | .rollback, history => .rollback (.ret ⟨history, .rolledBack⟩)
  | .commit, history => .commit fun outcome =>
    match outcome with
    | none => .ret ⟨history, .applied⟩
    | some conflict => .ret ⟨history, .conflict conflict⟩

/-- The transaction on the named roots themselves, with nobody else there: the roots it leaves if
it commits, and what its caller has seen. -/
def serial : Transaction → History → NamedRoots → Option NamedRoots × History
  | .loadNamedRoot name next, history, roots =>
    (next (treeAt roots name)).serial (.read name (treeAt roots name) :: history) roots
  | .loadNamedRootsOrdered names next, history, roots =>
    let found := names.map (treeAt roots)
    (next found).serial ((names.zipWith .read found).reverse ++ history) roots
  | .publishNamedRootAtMillis name tree timestampMillis next, history, roots =>
    next.serial (.staged name (some tree) :: history)
      (roots.set name (some (.replacing (roots.get? name) timestampMillis tree)))
  | .deleteNamedRoot name next, history, roots =>
    next.serial (.staged name none :: history) (roots.set name none)
  | .compareAndSwapNamedRootAtMillis name expected new timestampMillis next, history, roots =>
    let current := treeAt roots name
    if current ≠ expected then (next (.conflict current)).serial
      (.read name current :: history) roots
    else
      (next .applied).serial (.staged name new :: .read name expected :: history)
        (roots.set name (new.map (.replacing (roots.get? name) timestampMillis)))
  | .putNode _ _ next, history, roots => next.serial history roots
  | .rollback, history, _ => (none, history)
  | .commit, history, roots => (some roots, history)

/-- What both ends of a transaction have, and what a client keeps that reads or stages before it,
holds of the transaction. -/
theorem client_of {P : Client TransactionResult → Prop}
    (hload : ∀ name next, (∀ root, P (next root)) → P (.load name next))
    (hstage : ∀ name value next, P next → P (.stage name value next))
    (hput : ∀ key value next, P next → P (.stageData key value next))
    (hrollback : ∀ history, P (rollback.client history))
    (hcommit : ∀ history, P (commit.client history)) (t : Transaction) (history : History) :
    P (t.client history) := by
  induction t generalizing history with
  | loadNamedRoot name next ih => exact hload _ _ fun _ => ih _ _
  | loadNamedRootsOrdered names next ih =>
    have hall : ∀ rest roots, P (Client.loadNamedRootsOrdered (fun roots =>
        (next roots).client ((names.zipWith .read roots).reverse ++ history)) rest roots) := by
      intro rest
      induction rest with
      | nil => exact fun roots => ih _ _
      | cons name rest ihn => exact fun roots => hload _ _ fun _ => ihn _
    exact hall names []
  | publishNamedRootAtMillis name tree timestampMillis next ih =>
    exact hload _ _ fun _ => hstage _ _ _ (ih _)
  | deleteNamedRoot name next ih => exact hstage _ _ _ (ih _)
  | compareAndSwapNamedRootAtMillis name expected new timestampMillis next ih =>
    refine hload _ _ fun current => ?_
    dsimp only
    split
    · exact ih _ _
    · refine hload _ _ fun current' => ?_
      dsimp only
      split
      · exact ih _ _
      · exact hstage _ _ _ (ih _ _)
  | putNode key value next ih => exact hput _ _ _ (ih _)
  | rollback => exact hrollback history
  | commit => exact hcommit history

theorem isTransaction (t : Transaction) (history : History) :
    (t.client history).IsTransaction TransactionResult.history := by
  refine t.client_of (fun _ _ h => h) (fun _ _ _ h => h) (fun _ _ _ h => h) (fun _ => ⟨_, rfl⟩) ?_ _
  refine fun history => ⟨history, fun outcome => ?_⟩
  cases outcome with
  | none => exact ⟨_, rfl, rfl⟩
  | some conflict => exact ⟨_, rfl, rfl⟩

/-- A transaction tells whether it was applied. -/
theorem once (t : Transaction) (history : History) :
    (t.client history).Once (·.outcome = .applied) (·.outcome ≠ .applied) :=
  t.client_of (fun _ _ h => h) (fun _ _ _ h => h) (fun _ _ _ h => h) (fun _ h => by cases h)
    (fun _ => ⟨⟨_, rfl, rfl⟩, fun _ h => by cases h⟩) history

/-! ### A transaction alone -/

theorem alone_loadNamedRootsOrdered (next : List (Option Tree) → Client TransactionResult)
    (names : List Bytes) (found : List (Option Tree)) (roots : NamedRoots) :
    (Client.loadNamedRootsOrdered next names found).alone roots =
      (next (found ++ names.map (treeAt roots))).alone roots := by
  induction names generalizing found with
  | nil => simp [Client.loadNamedRootsOrdered]
  | cons name names ih =>
    rw [Client.loadNamedRootsOrdered, Client.loadNamedRoot, Prog.alone, ih]
    simp [treeAt]

/-- Over an overlay and on the roots themselves a transaction that is alone does the same. -/
theorem alone_client (t : Transaction) (history : History) (roots : NamedRoots) :
    (t.client history).alone roots = ((t.serial history roots).1, .ret ⟨(t.serial history roots).2,
        if (t.serial history roots).1.isSome then .applied else .rolledBack⟩) := by
  induction t generalizing history roots with
  | loadNamedRoot name next ih => exact ih _ _ _
  | loadNamedRootsOrdered names next ih =>
    rw [client, alone_loadNamedRootsOrdered, List.nil_append, ih]
    rfl
  | publishNamedRootAtMillis name tree timestampMillis next ih => exact ih _ _
  | deleteNamedRoot name next ih => exact ih _ _
  | compareAndSwapNamedRootAtMillis name expected new timestampMillis next ih =>
    rw [client, Client.compareAndSwapNamedRootAtMillis, Prog.alone, serial, treeAt]
    split
    · exact ih _ _ _
    · rw [Client.compareAndSwapRoot, Prog.alone, if_neg (not_not_intro rfl), Prog.alone]
      exact ih _ _ _
  | putNode key value next ih => exact ih _ _
  | rollback => rfl
  | commit => rfl

/-! ### Reads of one transaction -/

/-- What the caller has last seen of a name is there. -/
def Knows (roots : NamedRoots) (history : History) : Prop :=
  ∀ name, ∀ known ∈ latest name history, treeAt roots name = known

theorem Knows.read {roots : NamedRoots} {history : History} (h : Knows roots history)
    (name : Bytes) : Knows roots (.read name (treeAt roots name) :: history) := by
  intro n known hknown
  rw [latest] at hknown
  split at hknown
  · next heq => rw [← heq, Option.some.inj hknown]
  · exact h n known hknown

theorem Knows.staged {roots : NamedRoots} {history : History} (h : Knows roots history)
    (name : Bytes) (value : Option RootManifest) :
    Knows (roots.set name value) (.staged name (value.map RootManifest.toTree) :: history) := by
  intro n known hknown
  rw [latest] at hknown
  rw [treeAt, SortedMap.get?_set]
  split at hknown
  · next heq => rw [if_pos heq, Option.some.inj hknown]
  · next hne => rw [if_neg hne, ← h n known hknown, treeAt]

theorem Knows.readAll {roots : NamedRoots} {history : History} (h : Knows roots history)
    (hreads : ReadsLatest history) (names : List Bytes) :
    let found := names.map (treeAt roots)
    Knows roots ((names.zipWith .read found).reverse ++ history) ∧
      ReadsLatest ((names.zipWith .read found).reverse ++ history) := by
  induction names generalizing history with
  | nil => exact ⟨h, hreads⟩
  | cons name names ih =>
    have hrest := ih (h.read name) ⟨h name, hreads⟩
    simpa using hrest

/-- On the roots themselves every read finds what was last read or staged. -/
theorem serial_readsLatest (t : Transaction) {history : History} {roots : NamedRoots}
    (hk : Knows roots history) (hreads : ReadsLatest history) :
    ReadsLatest (t.serial history roots).2 := by
  induction t generalizing history roots with
  | loadNamedRoot name next ih => exact ih _ (hk.read name) ⟨hk name, hreads⟩
  | loadNamedRootsOrdered names next ih =>
    obtain ⟨hk', hreads'⟩ := hk.readAll hreads names
    exact ih _ hk' hreads'
  | publishNamedRootAtMillis name tree timestampMillis next ih => exact ih (hk.staged name _) hreads
  | deleteNamedRoot name next ih => exact ih (hk.staged name none) hreads
  | compareAndSwapNamedRootAtMillis name expected new timestampMillis next ih =>
    have hk' := hk.read name
    have hreads' : ReadsLatest (.read name (treeAt roots name) :: history) := ⟨hk name, hreads⟩
    rw [serial]
    split
    · exact ih _ hk' hreads'
    · next hexpected =>
      rw [not_not.mp hexpected] at hk' hreads'
      have hstaged := hk'.staged name (new.map (.replacing (roots.get? name) timestampMillis))
      rw [Option.map_map, show RootManifest.toTree ∘ _ = id from rfl, Option.map_id] at hstaged
      exact ih .applied hstaged hreads'
  | putNode key value next ih => exact ih hk hreads
  | rollback => exact hreads
  | commit => exact hreads

end Transaction

/-! ### Serializability -/

section Serializable

open Optimistic (Config Event Run)

variable {ι : Type} [DecidableEq ι]

/-- The transactions about to begin. -/
def Transaction.start (store : MemStore) (transactions : ι → Transaction) :
    Config ι Bytes Bytes RootManifest TransactionResult :=
  ⟨store, fun i => { prog := .begin ((transactions i).client []) }⟩

/-- In every interleaving of any transactions: the committed ones have told their callers and left
the named roots as one after another on the roots themselves, in the order of their commits; those
are the ones that report it, each once; no other operation, a conflict and a rollback among them,
changes nodes or roots; and every transaction that has ended, in whatever way, has told its caller
what it would have alone on some roots, so that a read finds the root staged last, or else the root
of every other read of the name. -/
theorem transactions_serializable (store : MemStore) (transactions : ι → Transaction)
    {events : List (Event ι Bytes Bytes RootManifest)}
    {c : Config ι Bytes Bytes RootManifest TransactionResult}
    (h : Run (Transaction.start store transactions) events c) :
    (∃ committed,
      Optimistic.serialAll (fun i => (transactions i).serial []) (events.map Event.process)
        store.roots = (committed, c.store.roots) ∧
      ∀ i history, (c.procs i).prog = .ret ⟨history, .applied⟩ ↔ (i, history) ∈ committed) ∧
    (events.map Event.process).Nodup ∧
    (∀ i s p, (c.procs i).next c.store = some (s, p, false) → s = c.store) ∧
    ∀ i result, (c.procs i).prog = .ret result → ReadsLatest result.history ∧
      ∃ roots, result.history = ((transactions i).serial [] roots).2 := by
  have htx := fun i => (transactions i).isTransaction []
  obtain ⟨hnodup, honce⟩ := h.once fun i => (transactions i).once []
  -- what the caller of a committed transaction has seen
  have hresult : ∀ e ∈ events, (c.procs e.process).prog =
      .ret ⟨((transactions e.process).serial [] e.before.roots).2, .applied⟩ ∧
      ((transactions e.process).serial [] e.before.roots).1 = some e.after.roots := by
    intro e he
    have halone := (h.alone htx (fun _ => rfl) e.process).2 e he rfl
    rw [Transaction.alone_client] at halone
    obtain ⟨hroots, hprog⟩ := Prod.mk.inj halone
    rw [hroots] at hprog
    exact ⟨hprog.symm, hroots⟩
  refine ⟨?_, hnodup, fun i s p hnext => h.next_store htx (fun _ => rfl) hnext,
    fun i result hret => ?_⟩
  · refine ⟨_, h.linked.serialAll fun e he => (hresult e he).2, fun i history => ?_⟩
    rw [List.mem_map]
    constructor
    · intro happlied
      have hevent : ∃ e ∈ events, e.process = i := by
        by_contra hnone
        have hundone := (honce i).1 fun e he hi => hnone ⟨e, he, hi⟩
        rw [happlied] at hundone
        exact hundone rfl
      obtain ⟨e, he, rfl⟩ := hevent
      have hprog := (hresult e he).1
      rw [happlied] at hprog
      cases hprog
      exact ⟨e, he, rfl⟩
    · rintro ⟨e, he, heq⟩
      cases heq
      exact (hresult e he).1
  · obtain ⟨roots, result', halone, hhistory⟩ := h.shows htx (fun _ => rfl) hret
    rw [Transaction.alone_client] at halone
    cases halone
    refine ⟨?_, roots, hhistory.symm⟩
    rw [← hhistory]
    exact (transactions i).serial_readsLatest (fun _ _ hknown => by cases hknown) trivial

/-- Publish an empty tree under a name that is free, and read it back. -/
def publishIfAbsent (name : Bytes) (timestampMillis : Nat) : Transaction :=
  .compareAndSwapNamedRootAtMillis name none (some ⟨none, {}⟩) timestampMillis fun update =>
    match update with
    | .applied => .loadNamedRoot name fun _ => .commit
    | .conflict _ => .rollback

/-- Two transactions for one name that have both read it before the first commits: the second
reports a conflict, and the roots are those after the first alone. -/
theorem transactions_serializable_conflict :
    let c := (Transaction.start ⟨∅, ∅⟩ fun b : Bool => publishIfAbsent [97] b.toNat).exec
      [true, false, true, false, true, false, true, false, true, false, true, false, true, false]
    c.1.map Event.process = [true] ∧
      c.2.store.roots.get? [97] = some ⟨none, {}, some 1, some 1⟩ ∧
      (∃ committed, Optimistic.serialAll (fun b : Bool => (publishIfAbsent [97] b.toNat).serial [])
        (c.1.map Event.process) ∅ = (committed, c.2.store.roots) ∧
        ∀ b history, (c.2.procs b).prog = .ret ⟨history, .applied⟩ ↔ (b, history) ∈ committed) ∧
      (c.2.procs false).prog = .ret ⟨[.read [97] (some ⟨none, {}⟩),
        .staged [97] (some ⟨none, {}⟩), .read [97] none], .conflict ⟨[97], none,
          some ⟨none, {}, some 1, some 1⟩⟩⟩ := by
  refine ⟨by decide, by decide, ?_, by rfl⟩
  exact (transactions_serializable ⟨∅, ∅⟩ (fun b : Bool => publishIfAbsent [97] b.toNat)
    (Config.run_exec _ _)).1

end Serializable

end Prolly

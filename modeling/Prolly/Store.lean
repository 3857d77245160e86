import Prolly.NodeCodec
import Prolly.Lineage

/-!
# Prolly.Store

The tree manager and point reads (`AsyncProlly`, `engine/mod.rs`), and what it
means for a stored tree to hold a map.

A store maps content identifiers to the nodes their bytes decode to. `loadArc`
rejects a node whose own identifier is not the requested one, or whose format is
not the manager's, as `decode_owned` does. Node caches only repeat such loads and
are left out.

`Subtree p level cid es` is the representation predicate: from `cid` one reaches
a tree of uniform height `level` whose leaves hold exactly the sorted entries
`es`, each internal node naming the first key, identifier and entry count of its
children. Nothing in it asks for canonical chunk boundaries. The trees of all
later results are those with `Holds`.
-/

namespace Prolly

open SortedAssoc (Sorted lookup firstKey)

/-- Content-addressed node storage. -/
abbrev Store := Cid → Option Node

/-- `AsyncProlly`: a store with the configured format and the lineage cache.
`prefersBatchReads` is the store's hint that makes diff prefetch its frontier. -/
structure Manager where
  digests : Digests
  format : TreeFormat
  store : Store
  lineage : BranchLineageCache := {}
  prefersBatchReads : Bool := false

/-- `Tree`. Of the configuration only the format is kept: its runtime part has no influence on the
bytes of nodes. -/
structure Tree where
  root : Option Cid
  format : TreeFormat
  deriving DecidableEq

/-- `child_cid_from_bytes`. -/
def childCidFromBytes (child : Bytes) : Result Cid :=
  match Cid.ofBytes child with
  | none => .error .invalidNode
  | some cid => .ok cid

@[simp] theorem childCidFromBytes_bytes (c : Cid) : childCidFromBytes c.bytes = .ok c := by
  simp [childCidFromBytes]

namespace Node

/-- `child_cid_validated`. -/
def childCid (n : Node) (idx : Nat) : Result Cid :=
  match n.vals[idx]? with
  | none => .error .invalidNode
  | some child => childCidFromBytes child

/-- `ensure_node_value_count`. -/
def ensureValueCount (n : Node) : Result Unit :=
  if n.keys.length = n.vals.length then .ok () else .error .invalidNode

/-- `child_cids`. -/
def childCids (n : Node) : Result (List Cid) := do
  n.ensureValueCount
  n.vals.mapM childCidFromBytes

end Node

namespace Manager

/-- `load_arc`. -/
def loadArc (p : Manager) (cid : Cid) : Result Node :=
  match p.store cid with
  | none => .error (.notFound cid)
  | some node =>
    if node.cid p.digests ≠ cid then .error (.cidMismatch cid (node.cid p.digests))
    else if node.format ≠ p.format then .error .formatMismatch
    else .ok node

theorem loadArc_eq_ok {p : Manager} {cid : Cid} {n : Node} :
    p.loadArc cid = .ok n ↔ p.store cid = some n ∧ n.cid p.digests = cid ∧ n.format = p.format := by
  unfold loadArc
  cases h : p.store cid with
  | none => simp
  | some m =>
    dsimp only
    split
    · next hc => simp; rintro rfl h'; exact absurd h' hc
    · split
      · next hf => simp; rintro rfl _ h'; exact absurd h' hf
      · next hc hf =>
          simp only [not_not] at hc hf
          constructor
          · intro h; cases h; exact ⟨rfl, hc, hf⟩
          · rintro ⟨h, -, -⟩; cases h; rfl

/-! ### Point reads -/

/-- The index at which a descent goes on: the last key at or below `key`. -/
def childIndex (n : Node) (key : Bytes) : Nat :=
  match n.search key with
  | .ok index => index
  | .error index => index - 1

/-- The value a leaf holds at the index a search ended at. -/
def leafValue (n : Node) (index : Nat) (key : Bytes) : Option Bytes :=
  if n.keys[index]? = some key then n.vals[index]? else none

/-- The loop of `get`. -/
def getFrom (p : Manager) : Nat → Cid → Bytes → Result (Option Bytes)
  | 0, _, _ => .error .outOfFuel
  | fuel + 1, cid, key => do
      let node ← p.loadArc cid
      -- `Err(0) => return Ok(None)`
      if node.search key = .error 0 then return none
      let index := childIndex node key
      if node.leaf then return leafValue node index key
      getFrom p fuel (← node.childCid index) key

/-- `get`. -/
def get (p : Manager) (fuel : Nat) (tree : Tree) (key : Bytes) : Result (Option Bytes) :=
  match tree.root with
  | none => .ok none
  | some root => getFrom p fuel root key

/-- The descent of one key of `get_many_with`: `route_packed_positions` sends a key
below the first separator to the first child. -/
def readFrom (p : Manager) : Nat → Cid → Bytes → Result (Option Bytes)
  | 0, _, _ => .error .outOfFuel
  | fuel + 1, cid, key => do
      let node ← p.loadArc cid
      if node.leaf then return lookup node.entries key
      readFrom p fuel (← node.childCid (childIndex node key)) key

/-- `get_many_with`: the values of the keys, in input order. -/
def getMany (p : Manager) (fuel : Nat) (tree : Tree) (keys : List Bytes) :
    Result (List (Option Bytes)) :=
  match tree.root with
  | none => .ok (keys.map fun _ => none)
  | some root => keys.mapM fun key => readFrom p fuel root key

/-- The descent of `last_entry_with`: the last child down to the last entry. -/
def lastFrom (p : Manager) : Nat → Cid → Result (Option Entry)
  | 0, _ => .error .outOfFuel
  | fuel + 1, cid => do
      let node ← p.loadArc cid
      if node.leaf then return node.entries.getLast?
      lastFrom p fuel (← node.childCid (node.len - 1))

/-- `last_entry_with`. -/
def lastEntry (p : Manager) (fuel : Nat) (tree : Tree) : Result (Option Entry) :=
  match tree.root with
  | none => .ok none
  | some root => lastFrom p fuel root

end Manager

/-! ### What a stored tree holds -/

/-- A child as its parent names it, with the entries below it. -/
structure Child where
  cid : Cid
  entries : List Entry

def Child.all (kids : List Child) : List Entry := kids.flatMap Child.entries

@[simp] theorem Child.all_nil : Child.all [] = [] := rfl
@[simp] theorem Child.all_cons (c : Child) (kids : List Child) :
    Child.all (c :: kids) = c.entries ++ Child.all kids := rfl
@[simp] theorem Child.all_append (xs ys : List Child) :
    Child.all (xs ++ ys) = Child.all xs ++ Child.all ys := by
  simp [Child.all]

/-- `n` is the leaf holding `es`. -/
structure Node.IsLeaf (n : Node) (es : List Entry) : Prop where
  leaf : n.leaf = true
  level : n.level = 0
  keys : n.keys = es.map Prod.fst
  vals : n.vals = es.map Prod.snd
  counts : n.childCounts = []
  nonempty : es ≠ []
  sorted : Sorted es

/-- `n` is the internal node at `level` over `kids`. -/
structure Node.IsInternal (n : Node) (level : Nat) (kids : List Child) : Prop where
  leaf : n.leaf = false
  level : n.level = level
  keys : n.keys = kids.map fun c => SortedAssoc.firstKey c.entries
  vals : n.vals = kids.map fun c => c.cid.bytes
  counts : n.childCounts = kids.map fun c => c.entries.length
  nonempty : kids ≠ []
  sorted : Sorted (Child.all kids)

/-- From `cid` one reaches a tree of height `level` holding `es`. -/
def Subtree (p : Manager) : Nat → Cid → List Entry → Prop
  | 0, cid, es => ∃ n, p.loadArc cid = .ok n ∧ n.IsLeaf es
  | level + 1, cid, es => ∃ n kids, p.loadArc cid = .ok n ∧ n.IsInternal (level + 1) kids ∧
      es = Child.all kids ∧ ∀ c ∈ kids, Subtree p level c.cid c.entries

/-- The loaded node `n` is the root of a tree of height `level` holding `es`. -/
def NodeHolds (p : Manager) : Nat → Node → List Entry → Prop
  | 0, n, es => n.IsLeaf es
  | level + 1, n, es => ∃ kids, n.IsInternal (level + 1) kids ∧ es = Child.all kids ∧
      ∀ c ∈ kids, Subtree p level c.cid c.entries

variable {p : Manager} {level : Nat} {es : List Entry} {kids : List Child} {n : Node}

theorem subtree_iff {cid : Cid} :
    Subtree p level cid es ↔ ∃ n, p.loadArc cid = .ok n ∧ NodeHolds p level n es := by
  cases level with
  | zero => rfl
  | succ level =>
    constructor
    · rintro ⟨n, kids, hn, hint, hes, hkids⟩
      exact ⟨n, hn, kids, hint, hes, hkids⟩
    · rintro ⟨n, hn, kids, hint, hes, hkids⟩
      exact ⟨n, kids, hn, hint, hes, hkids⟩

/-- The tree rooted at `root` holds the sorted entries `es`. -/
def Holds (p : Manager) : Option Cid → List Entry → Prop
  | none, es => es = []
  | some cid, es => ∃ level, Subtree p level cid es

/-! ### Representation facts -/

theorem Child.all_ne_nil (hne : kids ≠ []) (h : ∀ c ∈ kids, c.entries ≠ []) :
    Child.all kids ≠ [] := by
  cases kids with
  | nil => exact absurd rfl hne
  | cons c kids =>
    intro h0
    exact h c List.mem_cons_self (List.append_eq_nil_iff.mp h0).1

namespace Subtree

variable {p : Manager}

theorem sorted : ∀ {level : Nat} {cid : Cid} {es : List Entry}, Subtree p level cid es → Sorted es
  | 0, _, _, ⟨_, _, hleaf⟩ => hleaf.sorted
  | _ + 1, _, _, ⟨_, _, _, hint, hes, _⟩ => hes ▸ hint.sorted

theorem nonempty : ∀ {level : Nat} {cid : Cid} {es : List Entry}, Subtree p level cid es → es ≠ []
  | 0, _, _, ⟨_, _, hleaf⟩ => hleaf.nonempty
  | _ + 1, _, _, ⟨_, _, _, hint, hes, hkids⟩ =>
    hes ▸ Child.all_ne_nil hint.nonempty fun c hc => nonempty (hkids c hc)

/-- A child list is determined by the identifiers and what they represent. -/
theorem kids_unique {level : Nat}
    (ih : ∀ {cid : Cid} {es es' : List Entry}, Subtree p level cid es → Subtree p level cid es' →
      es = es') :
    ∀ {kids kids' : List Child}, (kids.map fun c => c.cid.bytes) = kids'.map
      (fun c => c.cid.bytes) → (∀ c ∈ kids, Subtree p level c.cid c.entries) →
      (∀ c ∈ kids', Subtree p level c.cid c.entries) → kids = kids'
  | [], [], _, _, _ => rfl
  | c :: kids, c' :: kids', hmap, hk, hk' => by
    obtain ⟨hcid, hmap⟩ := List.cons.inj hmap
    have hcid : c.cid = c'.cid := Cid.ext hcid
    have hes : c.entries = c'.entries :=
      ih (hk c List.mem_cons_self) (hcid ▸ hk' c' List.mem_cons_self)
    have hrest := kids_unique ih hmap (fun x hx => hk x (.tail _ hx))
      (fun x hx => hk' x (.tail _ hx))
    cases c; cases c'
    simp_all

/-- An identifier represents one list of entries, at one height. -/
theorem unique : ∀ {level level' : Nat} {cid : Cid} {es es' : List Entry},
    Subtree p level cid es → Subtree p level' cid es' → level = level' ∧ es = es' := by
  intro level
  induction level with
  | zero =>
    rintro (_ | level') cid es es' ⟨n, hn, hleaf⟩ h'
    · obtain ⟨n', hn', hleaf'⟩ := h'
      obtain rfl : n = n' := Except.ok.inj (hn.symm.trans hn')
      exact ⟨rfl, by rw [← SortedAssoc.zip_fst_snd es, ← SortedAssoc.zip_fst_snd es', ← hleaf.keys,
        ← hleaf.vals, hleaf'.keys, hleaf'.vals]⟩
    · obtain ⟨n', _, hn', hint, -, -⟩ := h'
      obtain rfl : n = n' := Except.ok.inj (hn.symm.trans hn')
      exact absurd hint.leaf (by simp [hleaf.leaf])
  | succ level ih =>
    rintro (_ | level') cid es es' ⟨n, kids, hn, hint, rfl, hkids⟩ h'
    · obtain ⟨n', hn', hleaf⟩ := h'
      obtain rfl : n = n' := Except.ok.inj (hn.symm.trans hn')
      exact absurd hint.leaf (by simp [hleaf.leaf])
    · obtain ⟨n', kids', hn', hint', rfl, hkids'⟩ := h'
      obtain rfl : n = n' := Except.ok.inj (hn.symm.trans hn')
      have hlevel : level + 1 = level' + 1 := hint.level.symm.trans hint'.level
      obtain rfl : level = level' := by omega
      have := kids_unique (fun h h' => (ih h h').2) (hint.vals.symm.trans hint'.vals) hkids hkids'
      exact ⟨rfl, by rw [this]⟩

/-- Loads that stay the same keep a representation. -/
theorem mono {q : Manager} (h : ∀ cid n, p.loadArc cid = .ok n → q.loadArc cid = .ok n) :
    ∀ {level : Nat} {cid : Cid} {es : List Entry}, Subtree p level cid es → Subtree q level cid es
  | 0, _, _, ⟨n, hn, hleaf⟩ => ⟨n, h _ _ hn, hleaf⟩
  | _ + 1, _, _, ⟨n, kids, hn, hint, hes, hkids⟩ =>
    ⟨n, kids, h _ _ hn, hint, hes, fun c hc => mono h (hkids c hc)⟩

end Subtree

namespace Holds

variable {p : Manager} {root : Option Cid} {es es' : List Entry}

theorem sorted (h : Holds p root es) : Sorted es := by
  cases root with
  | none => rw [show es = [] from h]; exact SortedAssoc.sorted_nil
  | some cid => obtain ⟨_, h⟩ := h; exact h.sorted

theorem unique (h : Holds p root es) (h' : Holds p root es') : es = es' := by
  cases root with
  | none => exact (show es = [] from h).trans (show es' = [] from h').symm
  | some cid => obtain ⟨_, h⟩ := h; obtain ⟨_, h'⟩ := h'; exact (h.unique h').2

theorem mono {q : Manager} (hq : ∀ cid n, p.loadArc cid = .ok n → q.loadArc cid = .ok n)
    (h : Holds p root es) : Holds q root es := by
  cases root with
  | none => exact h
  | some cid => obtain ⟨level, h⟩ := h; exact ⟨level, h.mono hq⟩

end Holds

/-! ### Nodes and their identifiers -/

/-- Nodes with the same identifier have the same encoding. -/
def Digests.CollisionFree (d : Digests) (nodes : Set Node) : Prop :=
  ∀ n ∈ nodes, ∀ m ∈ nodes, n.cid d = m.cid d → n.toBytes = m.toBytes

theorem Digests.CollisionFree.mono {d : Digests} {nodes nodes' : Set Node}
    (h : d.CollisionFree nodes') (hsub : nodes ⊆ nodes') : d.CollisionFree nodes :=
  fun n hn m hm => h n (hsub hn) m (hsub hm)

def Manager.nodes (p : Manager) : Set Node := {n | ∃ cid, p.loadArc cid = .ok n}

theorem Node.IsLeaf.wellShaped (h : n.IsLeaf es) : n.WellShaped :=
  ⟨by simp [h.keys, h.vals], fun _ => h.counts, fun hl => by simp [h.leaf] at hl⟩

theorem Node.IsInternal.wellShaped (h : n.IsInternal level kids) : n.WellShaped :=
  ⟨by simp [h.keys, h.vals], fun hl => by simp [h.leaf] at hl, fun _ => by simp [h.counts, h.keys]⟩

theorem NodeHolds.wellShaped (h : NodeHolds p level n es) : n.WellShaped := by
  cases level with
  | zero => exact Node.IsLeaf.wellShaped h
  | succ level => obtain ⟨kids, hint, -, -⟩ := h; exact hint.wellShaped

/-! ### The map at a root -/

/-- The tree rooted at `root` holds the finite map `f`. -/
def Manager.Means (p : Manager) (root : Option Cid) (f : Bytes → Option Bytes) : Prop :=
  ∃ es, Holds p root es ∧ lookup es = f

theorem Manager.Means.functional (root : Option Cid) (f g : Bytes → Option Bytes)
    (hf : p.Means root f) (hg : p.Means root g) : f = g := by
  obtain ⟨es, hes, rfl⟩ := hf
  obtain ⟨es', hes', rfl⟩ := hg
  rw [hes.unique hes']

/-- Every record of the lineage cache leads from the map at its parent to the map at its
root. -/
def Manager.LineageSound (p : Manager) : Prop := p.lineage.Sound p.Means

/-- `record_branch_lineage`. -/
def Manager.recordBranchLineage (p : Manager) (base branch : Tree) (lineage : List Mutation) :
    Manager :=
  match branch.root with
  | none => p
  | some root =>
    if base.root = branch.root ∨ ¬StrictlySorted lineage then p
    else { p with lineage := p.lineage.insert base.root root lineage }

/-- The managers there are while the writes that are recorded are right. The cache starts empty, and
`clear_cache` empties it; the store grows; a question is answered; a write is recorded with its
mutations, as by `batch_with_lineage`, or with what `batch_with_origin` makes of them. -/
inductive Manager.Recorded : Manager → Prop where
  | fresh {p : Manager} (h : p.lineage = {}) : Recorded p
  | grown {p q : Manager} (h : Recorded p) (hlineage : q.lineage = p.lineage)
      (hload : ∀ cid n, p.loadArc cid = .ok n → q.loadArc cid = .ok n) : Recorded q
  | asked {p : Manager} (h : Recorded p) (base branch : Option Cid) :
      Recorded { p with lineage := (p.lineage.changesSince base branch).2 }
  | written {p : Manager} {base branch : Tree} {f : Bytes → Option Bytes}
      {mutations lineage : List Mutation} (h : Recorded p) (hbase : p.Means base.root f)
      (hbranch : p.Means branch.root (applyMutations f mutations))
      (hlineage : lineage = mutations ∨
        ∃ origin, automaticBranchLineage mutations origin = some lineage) :
      Recorded (p.recordBranchLineage base branch lineage)

theorem Manager.Means.mono {q : Manager} {root : Option Cid} {f : Bytes → Option Bytes}
    (hload : ∀ cid n, p.loadArc cid = .ok n → q.loadArc cid = .ok n) (h : p.Means root f) :
    q.Means root f := by
  obtain ⟨es, hes, hf⟩ := h
  exact ⟨es, hes.mono hload, hf⟩

/-- What roots mean does not depend on the cache. -/
theorem Manager.LineageSound.of_sound {c : BranchLineageCache} (h : c.Sound p.Means) :
    ({ p with lineage := c } : Manager).LineageSound :=
  h.mono fun _ _ => Manager.Means.mono (p := p) fun _ _ hn => hn

/-- What the code records is sound. -/
theorem Manager.Recorded.lineageSound (h : p.Recorded) : p.LineageSound := by
  induction h with
  | fresh h =>
    rw [LineageSound, h]
    exact BranchLineageCache.sound_empty _
  | grown _ hlineage hload ih =>
    rw [LineageSound, hlineage]
    exact ih.mono fun _ _ => Means.mono hload
  | asked _ base branch ih =>
    exact .of_sound (BranchLineageCache.changesSince_sound Means.functional ih base branch).1
  | @written p base branch f mutations lineage _ hbase hbranch hlineage ih =>
    have happly : applyMutations f lineage = applyMutations f mutations := by
      rcases hlineage with rfl | ⟨origin, hauto⟩
      · rfl
      · rw [automaticBranchLineage_eq hauto, applyMutations, Edits.apply_normalize]
    unfold recordBranchLineage
    split
    · exact ih
    · next root hroot =>
      split
      · exact ih
      · next hadmitted =>
        have hsorted : StrictlySorted lineage := not_not.mp fun h => hadmitted (.inr h)
        have hop : BranchLineageCache.Hop p.Means base.root (some root) lineage :=
          ⟨hsorted, f, hbase, by rwa [happly, ← hroot]⟩
        exact .of_sound (ih.insert hop)

/-- The mutations a sound cache answers with lead from one map to the other. -/
theorem Manager.LineageSound.changesSince (h : p.LineageSound) {base branch : Option Cid}
    {bs os : List Entry} (hb : Holds p base bs) (ho : Holds p branch os) {ms : List Mutation}
    (hms : (p.lineage.changesSince base branch).1 = some ms) :
    StrictlySorted ms ∧ lookup os = applyMutations (lookup bs) ms := by
  obtain ⟨hs, hlinks⟩ := (BranchLineageCache.changesSince_sound Manager.Means.functional h
    base branch).2 ms hms
  exact ⟨hs, hlinks _ _ ⟨bs, hb, rfl⟩ ⟨os, ho, rfl⟩⟩

end Prolly

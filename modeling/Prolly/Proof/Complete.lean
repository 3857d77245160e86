import Mathlib.Data.List.Dedup
import Prolly.Proof.Prove
import Prolly.Proof.DiffPage
import Prolly.Scan.Iter

/-!
# Prolly.Proof.Complete

The proofs the crate makes are accepted, and verifying them reports what a read of the
tree reports.

That a valid proof reports the right thing is soundness. It needs no assumption about
SHA-256 here, since the nodes of such a proof are stored nodes (`Genuine.authentic`). What
is left is validity. A key proof is a route from the root to a leaf (`Route`). A range
proof is what a work stack collects; when the stack is empty, the collected nodes contain
every child the window overlaps (`Collecting`), and these are the children the verifier
looks for.

The verifier compares levels as saturating `u8` numbers. Stored nodes are decoded from
bytes, so that their levels fit.
-/

namespace Prolly

open SortedAssoc (Sorted lookup firstKey)
open List
open Manager (loadArc_eq_ok pushUnseen)

/-- The stored nodes were decoded from bytes. -/
def Manager.FromBytes (p : Manager) : Prop :=
  ∀ cid n, p.store cid = some n → ∃ data, Node.fromBytes data = .ok n

/-- Nodes as a prover loads them. -/
def Genuine (p : Manager) (path : List Node) : Prop :=
  ∀ n ∈ path, p.loadArc (n.cid p.digests) = .ok n ∧ nodeShapeIsValid n = true

/-! ### Stored nodes -/

section Stored

variable {p : Manager} {path nodes : List Node} {n : Node} {cid : Cid} {level : Nat}

theorem Genuine.eq_of_cid (h : Genuine p nodes) (hn : n ∈ nodes) {m : Node}
    (hcid : n.cid p.digests = cid) (hm : p.loadArc cid = .ok m) : n = m := by
  subst hcid
  exact Except.ok.inj ((h n hn).1.symm.trans hm)

theorem Genuine.authentic (h : Genuine p path) : Authentic p path := by
  intro n hn level cid es hcid hsub
  obtain ⟨m, hm, hholds⟩ := subtree_iff.mp hsub
  rw [h.eq_of_cid hn hcid hm]
  exact hholds

theorem Genuine.nodeMapGet (h : Genuine p nodes) (hn : n ∈ nodes) (hload : p.loadArc cid = .ok n) :
    nodeMapGet p.digests nodes cid = some n := by
  have hcid : n.cid p.digests = cid := (loadArc_eq_ok.mp hload).2.1
  cases hget : Prolly.nodeMapGet p.digests nodes cid with
  | none =>
    have hnone := List.find?_eq_none.mp hget n (mem_reverse.mpr hn)
    simp [hcid] at hnone
  | some m =>
    obtain ⟨hm, hmcid⟩ := nodeMapGet_eq_some hget
    rw [h.eq_of_cid hm hmcid hload]

theorem Genuine.proofNodeMap (h : Genuine p nodes) : proofNodeMap nodes = some nodes :=
  if_pos (all_eq_true.mpr fun n hn => (h n hn).2)

/-- Stored trees have nodes of valid shape. -/
theorem NodeHolds.nodeShapeIsValid {es : List Entry} (h : NodeHolds p level n es) :
    nodeShapeIsValid n = true := by
  cases level with
  | zero =>
    have h : n.IsLeaf es := h
    have hchain : (es.map Prod.fst).IsChain (· < ·) :=
      (SortedAssoc.sorted_iff_keys.mp h.sorted).isChain
    simp [Prolly.nodeShapeIsValid, h.keys, h.vals, h.nonempty, h.leaf, hchain]
  | succ level =>
    obtain ⟨kids, hint, -, hkids⟩ := h
    have hchain : (kids.map fun c => firstKey c.entries).IsChain (· < ·) := by
      refine List.Pairwise.isChain (pairwise_map.mpr ?_)
      exact Child.firstKeys_sorted hint.sorted fun c hc => (hkids c hc).nonempty
    simp [Prolly.nodeShapeIsValid, hint.keys, hint.vals, hint.nonempty, hint.leaf, hchain, Cid.size]

/-- The levels of stored nodes do not saturate. -/
theorem Manager.FromBytes.parentLevel_eq (hd : p.FromBytes) (hn : p.loadArc cid = .ok n)
    (hlevel : n.level = level + 1) : n.level = parentLevel level := by
  obtain ⟨data, hdata⟩ := hd cid n (loadArc_eq_ok.mp hn).1
  have hlt := (Node.fromBytes_shape hdata).level
  rw [parentLevel]
  omega

end Stored

/-! ### Key proofs -/

section Key

variable {p : Manager} {key : Bytes} {level : Nat} {cid : Cid} {es : List Entry}
  {path nodes : List Node} {tree : Tree} {seen : List Cid}

/-- The stored nodes from an identifier down to the leaf a key belongs to. -/
inductive Route (p : Manager) (key : Bytes) : Nat → Cid → List Node → Prop
  | leaf {cid : Cid} {n : Node} (load : p.loadArc cid = .ok n) (shape : nodeShapeIsValid n = true)
      (isLeaf : n.leaf = true) (level : n.level = 0) : Route p key 0 cid [n]
  | step {level : Nat} {cid child : Cid} {n : Node} {path : List Node}
      (load : p.loadArc cid = .ok n) (shape : nodeShapeIsValid n = true) (internal : n.leaf = false)
      (level_eq : n.level = level + 1) (parent : n.level = parentLevel level)
      (child_eq : childAt n (pathChildIndex n key) = some child)
      (rest : Route p key level child path) : Route p key (level + 1) cid (n :: path)

/-- `prove_key` follows the route. -/
theorem Manager.proveKeyLoop_route (hd : p.FromBytes) (hsub : Subtree p level cid es)
    (key : Bytes) : ∃ path, Route p key level cid path ∧
      ∀ fuel, level < fuel → p.proveKeyLoop key fuel cid = .ok path := by
  induction level generalizing cid es with
  | zero =>
    obtain ⟨n, hn, hleaf⟩ := hsub
    have hholds : NodeHolds p 0 n es := hleaf
    refine ⟨[n], .leaf hn hholds.nodeShapeIsValid hleaf.leaf hleaf.level, fun fuel hfuel => ?_⟩
    obtain _ | fuel := fuel
    · omega
    simp [proveKeyLoop, hn, hleaf.leaf]
  | succ level ih =>
    obtain ⟨n, kids, hn, hint, rfl, hkids⟩ := hsub
    obtain ⟨c, hc, hat, -⟩ := hint.pathChild
      (fun c hc => ⟨(hkids c hc).nonempty, (hkids c hc).sorted⟩) key
    obtain ⟨path, hroute, hloop⟩ := ih (hkids c hc)
    have hholds : NodeHolds p (level + 1) n (Child.all kids) := ⟨kids, hint, rfl, hkids⟩
    refine ⟨n :: path, .step hn hholds.nodeShapeIsValid hint.leaf hint.level
      (hd.parentLevel_eq hn hint.level) hat hroute, fun fuel hfuel => ?_⟩
    obtain _ | fuel := fuel
    · omega
    have hcid : n.childCid (pathChildIndex n key) = .ok c.cid := by
      obtain ⟨child, hget, hbytes⟩ := Option.bind_eq_some_iff.mp hat
      simp [Node.childCid, hget, childCidFromBytes, hbytes]
    simp [proveKeyLoop, hn, hint.leaf, hcid, hloop fuel (by omega)]

namespace Route

variable (h : Route p key level cid path)
include h

theorem genuine : Genuine p path := by
  induction h with
  | leaf hload hshape _ _ =>
    rintro m hm
    obtain rfl := mem_singleton.mp hm
    exact ⟨(loadArc_eq_ok.mp hload).2.1 ▸ hload, hshape⟩
  | step hload hshape _ _ _ _ _ ih =>
    rintro m hm
    rcases mem_cons.mp hm with rfl | hm
    · exact ⟨(loadArc_eq_ok.mp hload).2.1 ▸ hload, hshape⟩
    · exact ih m hm

theorem head : ∃ n rest, path = n :: rest ∧ n.cid p.digests = cid ∧ n.level = level := by
  cases h with
  | leaf hload _ _ hlevel => exact ⟨_, [], rfl, (loadArc_eq_ok.mp hload).2.1, hlevel⟩
  | step hload _ _ hlevel _ _ _ => exact ⟨_, _, rfl, (loadArc_eq_ok.mp hload).2.1, hlevel⟩

theorem level_le : ∀ n ∈ path, n.level ≤ level := by
  induction h with
  | leaf _ _ _ hlevel => simp [hlevel]
  | step _ _ _ hlevel _ _ _ ih =>
    exact forall_mem_cons.mpr ⟨hlevel.le, fun n hn => (ih n hn).trans (Nat.le_succ _)⟩

/-- Levels drop along the route, so that no node occurs twice. -/
theorem cids_nodup : (path.map (Node.cid p.digests)).Nodup := by
  induction h with
  | leaf => simp
  | step hload _ _ hlevel _ _ hrest ih =>
    refine nodup_cons.mpr ⟨fun hmem => ?_, ih⟩
    obtain ⟨m, hm, hcid⟩ := mem_map.mp hmem
    have hle := hrest.level_le m hm
    rw [hrest.genuine.eq_of_cid hm (hcid.trans (loadArc_eq_ok.mp hload).2.1) hload] at hle
    omega

theorem length_eq : path.length = level + 1 := by
  induction h with
  | leaf => rfl
  | step _ _ _ _ _ _ _ ih => rw [length_cons, ih]

theorem pathIsConsistent : pathIsConsistent p.digests key path = true := by
  induction h with
  | leaf _ hshape hleaf _ => simp [Prolly.pathIsConsistent, hshape, hleaf]
  | step _ hshape hleaf _ hparent hchild hrest ih =>
    obtain ⟨m, rest, rfl, hcid, hlevel⟩ := hrest.head
    simp [Prolly.pathIsConsistent, hshape, hleaf, hparent, hchild, hcid, hlevel, ih]

/-- A node set with the route in it leads the verifier to the leaf. -/
theorem verifiedValueLoop (hg : Genuine p nodes)
    (hsub : ∀ n ∈ path, n ∈ nodes) {visited : List Cid} {rounds : Nat}
    (hvisited : ∀ c ∈ visited, ∀ n, p.loadArc c = .ok n → level < n.level)
    (hrounds : level < rounds) :
    (verifiedValueLoop p.digests nodes key rounds visited cid).isSome = true := by
  induction h generalizing visited rounds with
  | leaf hload hshape hleaf hlevel =>
    rename_i cid n
    obtain _ | rounds := rounds
    · omega
    have hfresh : cid ∉ visited := fun hmem => by have := hvisited cid hmem n hload; omega
    have hget := hg.nodeMapGet (hsub n mem_cons_self) hload
    simp [Prolly.verifiedValueLoop, hfresh, hget, hleaf]
  | step hload hshape hleaf hlevel hparent hchild hrest ih =>
    rename_i level cid child n path
    obtain _ | rounds := rounds
    · omega
    have hfresh : cid ∉ visited := fun hmem => by have := hvisited cid hmem n hload; omega
    have hget := hg.nodeMapGet (hsub n mem_cons_self) hload
    obtain ⟨m, rest, rfl, hcid, hmlevel⟩ := hrest.head
    have hmload := (hrest.genuine m mem_cons_self).1
    rw [hcid] at hmload
    have hmget := hg.nodeMapGet (hsub m (by simp)) hmload
    have hvisited' : ∀ c ∈ cid :: visited, ∀ k, p.loadArc c = .ok k → level < k.level := by
      refine forall_mem_cons.mpr ⟨fun k hk => ?_, fun c hc k hk => ?_⟩
      · obtain rfl := Except.ok.inj (hload.symm.trans hk)
        omega
      · exact (Nat.lt_succ_self level).trans (hvisited c hc k hk)
    have hrec := ih (fun k hk => hsub k (.tail _ hk)) hvisited'
      (by omega : level < rounds)
    simp [Prolly.verifiedValueLoop, hfresh, hget, hleaf, hchild, hmget, hmlevel, hrec, ← hparent]

end Route

/-- `prove_key` makes a valid proof of what the tree holds at the key. -/
theorem Manager.proveKey_complete (hd : p.FromBytes) (h : Holds p tree.root es) (key : Bytes) :
    Enough fun fuel => ∃ proof, p.proveKey fuel tree key = .ok proof ∧
      verifyKeyProof p.digests proof = ⟨true, tree.root, key, lookup es key⟩ := by
  obtain ⟨root, format⟩ := tree
  cases root with
  | none =>
    obtain rfl : es = [] := h
    exact .of_forall fun fuel => ⟨⟨none, key, []⟩, rfl, rfl⟩
  | some root =>
    obtain ⟨level, hsub⟩ := h
    obtain ⟨path, hroute, hloop⟩ := proveKeyLoop_route hd hsub key
    refine ⟨level + 1, fun fuel hfuel => ⟨⟨some root, key, path⟩, ?_, ?_⟩⟩
    · simp [proveKey, hloop fuel hfuel]
    · have hvalid : proofIsConsistent p.digests ⟨some root, key, path⟩ = true := by
        have hconsistent := hroute.pathIsConsistent
        obtain ⟨n, rest, rfl, hcid, -⟩ := hroute.head
        simp [proofIsConsistent, hcid, hconsistent]
      have hvalue : (verifyKeyProof p.digests ⟨some root, key, path⟩).value = lookup es key :=
        verifyKeyProof_sound hroute.genuine.authentic ⟨level, hsub⟩ hvalid
      rw [← hvalue, ← hvalid]
      rfl

/-! ### Multi-key proofs -/

/-- Pushing nodes adds those that are not there yet. -/
theorem foldl_pushUnseen (hg : Genuine p (path ++ nodes))
    (hseen : ∀ c, c ∈ seen ↔ ∃ n ∈ path, n.cid p.digests = c) :
    ∃ seen' path', nodes.foldl (pushUnseen p.digests) (seen, path) = (seen', path') ∧
      (∀ c, c ∈ seen' ↔ ∃ n ∈ path', n.cid p.digests = c) ∧
      ∀ n, n ∈ path' ↔ n ∈ path ∨ n ∈ nodes := by
  induction nodes generalizing seen path with
  | nil => exact ⟨seen, path, rfl, hseen, by simp⟩
  | cons m nodes ih =>
    rw [foldl_cons, pushUnseen]
    by_cases hm : m.cid p.digests ∈ seen
    · -- a node with this identifier is in the path: the same node
      obtain ⟨n, hn, hcid⟩ := (hseen _).mp hm
      obtain rfl : n = m := hg.eq_of_cid (mem_append_left _ hn) hcid (hg m (by simp)).1
      obtain ⟨seen', path', hfold, hseen', hmem⟩ := ih (fun k hk => hg k (by
        rcases mem_append.mp hk with hk | hk <;> simp [hk])) hseen
      refine ⟨seen', path', by rw [if_pos hm, hfold], hseen', fun k => ?_⟩
      rw [hmem]
      constructor
      · rintro (hk | hk) <;> simp [hk]
      · rintro (hk | hk)
        · exact .inl hk
        · rcases mem_cons.mp hk with rfl | hk
          · exact .inl hn
          · exact .inr hk
    · have hseen1 : ∀ c, c ∈ m.cid p.digests :: seen ↔ ∃ n ∈ path ++ [m], n.cid p.digests = c := by
        intro c
        simp only [mem_cons, hseen c, mem_append, not_mem_nil, or_false]
        grind
      have hg1 : Genuine p ((path ++ [m]) ++ nodes) := fun k hk => hg k (by simpa using hk)
      obtain ⟨seen', path', hfold, hseen', hmem⟩ := ih hg1 hseen1
      refine ⟨seen', path', by rw [if_neg hm, hfold], hseen', fun k => ?_⟩
      rw [hmem]
      simp [or_assoc]

/-- The loop over the keys collects the nodes of their routes. -/
theorem foldlM_proveKeys {fuel : Nat} {keys : List Bytes} {route : Bytes → List Node}
    (hprove : ∀ key ∈ keys, p.proveKey fuel tree key = .ok ⟨tree.root, key, route key⟩)
    (hroute : ∀ key ∈ keys, Genuine p (route key)) (hg : Genuine p path)
    (hseen : ∀ c, c ∈ seen ↔ ∃ n ∈ path, n.cid p.digests = c) :
    ∃ seen' path', keys.foldlM (fun seenPath key => do
        let keyProof ← p.proveKey fuel tree key
        return keyProof.path.foldl (pushUnseen p.digests) seenPath) (seen, path) =
          .ok (seen', path') ∧
      Genuine p path' ∧ ∀ n, n ∈ path' ↔ n ∈ path ∨ ∃ key ∈ keys, n ∈ route key := by
  induction keys generalizing seen path with
  | nil => exact ⟨seen, path, rfl, hg, by simp⟩
  | cons key keys ih =>
    have hboth : Genuine p (path ++ route key) := by
      intro n hn
      rcases mem_append.mp hn with hn | hn
      · exact hg n hn
      · exact hroute key mem_cons_self n hn
    obtain ⟨seen1, path1, hfold, hseen1, hmem1⟩ := foldl_pushUnseen hboth hseen
    have hg1 : Genuine p path1 := fun n hn => hboth n (mem_append.mpr ((hmem1 n).mp hn))
    obtain ⟨seen', path', hfoldM, hg', hmem'⟩ := ih
      (fun k hk => hprove k (.tail _ hk))
      (fun k hk => hroute k (.tail _ hk)) hg1 hseen1
    refine ⟨seen', path', ?_, hg', fun n => ?_⟩
    · simp only [foldlM_cons, hprove key mem_cons_self, ok_bind, hfold, pure_eq]
      exact hfoldM
    · rw [hmem', hmem1]
      simp [or_assoc]

theorem verifiedValueFromNodeSet_complete (h : Route p key level cid path) (hg : Genuine p nodes)
    (hsub : ∀ n ∈ path, n ∈ nodes) (htree : Subtree p level cid es) :
    verifiedValueFromNodeSet p.digests cid key nodes = some (lookup es key) := by
  have hrounds : level < nodeMapLen p.digests nodes + 1 := by
    have hsubset : path.map (Node.cid p.digests) ⊆ (nodes.map (Node.cid p.digests)).dedup := by
      intro c hc
      obtain ⟨n, hn, rfl⟩ := mem_map.mp hc
      exact mem_dedup.mpr (mem_map_of_mem (hsub n hn))
    have hle := (subperm_of_subset h.cids_nodup hsubset).length_le
    rw [length_map, h.length_eq] at hle
    rw [nodeMapLen]
    omega
  obtain ⟨value, hvalue⟩ := Option.isSome_iff_exists.mp
    (h.verifiedValueLoop hg hsub (by simp : ∀ c ∈ [], _) hrounds)
  rw [verifiedValueFromNodeSet, hvalue, verifiedValueLoop_sound hg.authentic hvalue htree]

/-- `prove_keys` makes a valid proof of what the tree holds at the keys. -/
theorem Manager.proveKeys_complete (hd : p.FromBytes) (h : Holds p tree.root es)
    (keys : List Bytes) : Enough fun fuel => ∃ proof, p.proveKeys fuel tree keys = .ok proof ∧
      verifyMultiKeyProof p.digests proof = ⟨true, tree.root,
        keys.map fun key => ⟨true, tree.root, key, lookup es key⟩⟩ := by
  obtain ⟨root, format⟩ := tree
  cases root with
  | none =>
    obtain rfl : es = [] := h
    refine .of_forall fun fuel => ⟨⟨none, keys, []⟩, rfl, ?_⟩
    simp [verifyMultiKeyProof, Prolly.proofNodeMap]
  | some root =>
    obtain ⟨level, hsub⟩ := h
    choose route hroute hloop using fun key => proveKeyLoop_route hd hsub key
    refine ⟨level + 1, fun fuel hfuel => ?_⟩
    simp only [proveKeys]
    by_cases hempty : keys = []
    · subst hempty
      exact ⟨⟨some root, [], []⟩, rfl, rfl⟩
    · have hprove : ∀ key ∈ keys, p.proveKey fuel ⟨some root, format⟩ key =
          .ok ⟨some root, key, route key⟩ := fun key _ => by
        simp [proveKey, hloop key fuel hfuel]
      obtain ⟨seen', path', hfold, hg, hmem⟩ := foldlM_proveKeys hprove
        (fun key _ => (hroute key).genuine) (by simp [Genuine] : Genuine p [])
        (by simp : ∀ c, c ∈ [] ↔ _)
      refine ⟨⟨some root, keys, path'⟩, by rw [if_neg (by simpa using hempty), hfold]; rfl, ?_⟩
      have hvalue : ∀ key ∈ keys, verifiedValueFromNodeSet p.digests root key path' =
          some (lookup es key) := fun key hkey =>
        verifiedValueFromNodeSet_complete (hroute key) hg
          (fun n hn => (hmem n).mpr (.inr ⟨key, hkey, hn⟩)) hsub
      simp only [verifyMultiKeyProof, hg.proofNodeMap, List.isEmpty_iff, hempty, if_false, map_map]
      rw [MultiKeyProofVerification.mk.injEq]
      refine ⟨?_, rfl, map_congr_left fun key hkey => ?_⟩
      · simp only [all_map, all_eq_true]
        intro key hkey
        simp [hvalue key hkey]
      · simp [hvalue key hkey]

end Key

/-! ### Windows -/

section Windows

variable {p : Manager} {w : Window} {level fuel : Nat} {cid : Cid} {es : List Entry}
  {stack seen : List Cid} {path nodes : List Node} {spans : List ChildSpan} {kids : List Child}
  {n : Node} {k : Nat} {cids : List Cid}

theorem Child.all_sublist {xs ys : List Child} (h : xs.Sublist ys) :
    (Child.all xs).Sublist (Child.all ys) := by
  induction h with
  | slnil => exact .refl _
  | cons c _ ih => exact ih.trans (sublist_append_right c.entries _)
  | cons_cons c _ ih => exact List.Sublist.append (.refl c.entries) ih

/-- The children a collector picks are children of the node. -/
theorem Manager.collectChildren_spec (hspans : List.Forall₂ (SpanOf p level) spans kids) :
    ∃ picked : List Child, picked.Sublist kids ∧
      collectChildren w spans = .ok (picked.map Child.cid) := by
  induction hspans with
  | nil => exact ⟨[], .refl _, rfl⟩
  | cons hspan hspans ih =>
    rename_i s c spans kids
    obtain ⟨picked, hsub, hcollect⟩ := ih
    rw [collectChildren]
    split_ifs with hover hends
    · exact ⟨[], nil_sublist _, rfl⟩
    · exact ⟨picked, hsub.cons c, hcollect⟩
    · exact ⟨c :: picked, hsub.cons_cons c, by simp [hspan.child, hcollect]⟩

/-- The children of a stored node that overlap the window. -/
theorem Node.IsInternal.collectChildren (hint : n.IsInternal (level + 1) kids)
    (hkids : ∀ c ∈ kids, Subtree p level c.cid c.entries) :
    ∃ picked : List Child, picked.Sublist kids ∧
      Manager.collectChildren w (n.windowSpans w) = .ok (picked.map Child.cid) := by
  have hK : Kids p level none kids := ⟨hkids, hint.sorted, by simp [Bounded]⟩
  obtain ⟨hspans, -, -⟩ := hK.window (r := w.bounds) hint
  obtain ⟨picked, hsub, hcollect⟩ := Manager.collectChildren_spec (w := w) hspans
  exact ⟨picked, hsub.trans ((drop_sublist _ _).trans (take_sublist _ _)), hcollect⟩

/-- The stack holds stored subtrees, which at most so many iterations work off. -/
inductive Pending (p : Manager) : List Cid → Nat → Prop
  | nil : Pending p [] 0
  | cons {level k : Nat} {cid : Cid} {es : List Entry} {stack : List Cid}
      (head : Subtree p level cid es) (tail : Pending p stack k) :
      Pending p (cid :: stack) ((level + 1) * es.length + k)

theorem Pending.children (h : Pending p stack k) {picked : List Child}
    (hpicked : ∀ c ∈ picked, Subtree p level c.cid c.entries) :
    Pending p (picked.map Child.cid ++ stack) ((level + 1) * (Child.all picked).length + k) := by
  induction picked with
  | nil => simpa using h
  | cons c picked ih =>
    obtain ⟨hc, hpicked⟩ := forall_mem_cons.mp hpicked
    have hcons := Pending.cons hc (ih hpicked)
    rw [Child.all_cons, length_append, Nat.mul_add, Nat.add_assoc]
    exact hcons

/-- The state of the collectors: what was seen is in the path, and what the path needs is
seen or pending. -/
structure Collecting (p : Manager) (w : Window) (stack seen : List Cid) (path : List Node) :
    Prop where
  genuine : Genuine p path
  inPath : ∀ c ∈ seen, ∃ n ∈ path, n.cid p.digests = c
  closed : ∀ n ∈ path, n.leaf = false →
    ∃ cids, Manager.collectChildren w (n.windowSpans w) = .ok cids ∧
      ∀ c ∈ cids, c ∈ seen ∨ c ∈ stack

/-- An identifier that was seen before needs nothing. -/
theorem Collecting.skip (h : Collecting p w (cid :: stack) seen path) (hseen : cid ∈ seen) :
    Collecting p w stack seen path where
  genuine := h.genuine
  inPath := h.inPath
  closed n hn hleaf := by
    obtain ⟨cids, hcids, hall⟩ := h.closed n hn hleaf
    refine ⟨cids, hcids, fun c hc => ?_⟩
    rcases hall c hc with hc | hc
    · exact .inl hc
    · rcases mem_cons.mp hc with rfl | hc
      · exact .inl hseen
      · exact .inr hc

/-- A node joins the path; the children it needs join the stack. -/
theorem Collecting.push (h : Collecting p w (cid :: stack) seen path)
    (hload : p.loadArc cid = .ok n) (hshape : nodeShapeIsValid n = true)
    (hcids : n.leaf = false → Manager.collectChildren w (n.windowSpans w) = .ok cids) :
    Collecting p w (cids ++ stack) (cid :: seen) (path ++ [n]) where
  genuine m hm := by
    rcases mem_append.mp hm with hm | hm
    · exact h.genuine m hm
    · obtain rfl := mem_singleton.mp hm
      exact ⟨(loadArc_eq_ok.mp hload).2.1 ▸ hload, hshape⟩
  inPath := by
    refine forall_mem_cons.mpr ⟨⟨n, by simp, (loadArc_eq_ok.mp hload).2.1⟩, ?_⟩
    intro c hc
    obtain ⟨m, hm, hmc⟩ := h.inPath c hc
    exact ⟨m, mem_append_left _ hm, hmc⟩
  closed m hm hleaf := by
    rcases mem_append.mp hm with hm | hm
    · obtain ⟨cids', hcids', hall⟩ := h.closed m hm hleaf
      refine ⟨cids', hcids', fun c hc => ?_⟩
      rcases hall c hc with hc | hc
      · exact .inl (.tail _ hc)
      · rcases mem_cons.mp hc with rfl | hc
        · exact .inl mem_cons_self
        · exact .inr (mem_append_right _ hc)
    · obtain rfl := mem_singleton.mp hm
      exact ⟨cids, hcids hleaf, fun c hc => .inr (mem_append_left _ hc)⟩

/-- The collectors finish, and what they were asked for is collected. The induction is on
the iterations. -/
theorem Manager.collectProofNodes_spec (hstack : Pending p stack k) (hfuel : k < fuel)
    (h : Collecting p w stack seen path) :
    ∃ seen' path', p.collectProofNodes w fuel stack seen path = .ok path' ∧
      Collecting p w [] seen' path' ∧ ∀ c, c ∈ seen ∨ c ∈ stack → c ∈ seen' := by
  induction fuel generalizing stack seen path k with
  | zero => omega
  | succ fuel ih =>
    cases hstack with
    | nil => exact ⟨seen, path, by rw [collectProofNodes], h, by simp⟩
    | cons hsub htail =>
      rename_i level k cid es stack
      have hpos : 0 < (level + 1) * es.length :=
        Nat.mul_pos (Nat.succ_pos _) (length_pos_of_ne_nil hsub.nonempty)
      rw [collectProofNodes]
      by_cases hseen : cid ∈ seen
      · obtain ⟨seen', path', hrun, hdone, hall⟩ := ih htail (by omega) (h.skip hseen)
        refine ⟨seen', path', by rw [if_pos hseen, hrun], hdone, fun c hc => hall c ?_⟩
        rcases hc with hc | hc
        · exact .inl hc
        · rcases mem_cons.mp hc with rfl | hc
          · exact .inl hseen
          · exact .inr hc
      · obtain ⟨n, hload, hholds⟩ := subtree_iff.mp hsub
        have hshape := hholds.nodeShapeIsValid
        rw [if_neg hseen, hload, ok_bind]
        have hkept : ∀ {cids : List Cid} {c : Cid}, c ∈ seen ∨ c ∈ cid :: stack →
            c ∈ cid :: seen ∨ c ∈ cids ++ stack := by
          rintro cids c (hc | hc)
          · exact .inl (.tail _ hc)
          · rcases mem_cons.mp hc with rfl | hc
            · exact .inl mem_cons_self
            · exact .inr (mem_append_right _ hc)
        cases level with
        | zero =>
          have hleaf : n.IsLeaf es := hholds
          have hpush : Collecting p w ([] ++ stack) (cid :: seen) (path ++ [n]) :=
            h.push hload hshape fun hfalse => by simp [hleaf.leaf] at hfalse
          obtain ⟨seen', path', hrun, hdone, hall⟩ := ih htail (by omega) hpush
          refine ⟨seen', path', ?_, hdone, fun c hc => hall c (hkept hc : _ ∨ c ∈ [] ++ stack)⟩
          rw [if_pos hleaf.leaf, hrun]
        | succ level =>
          obtain ⟨kids, hint, rfl, hkids⟩ := hholds
          obtain ⟨picked, hpicked, hcollect⟩ := hint.collectChildren (w := w) hkids
          have hle := (Child.all_sublist hpicked).length_le
          have hroom : (level + 1) * (Child.all picked).length + k < fuel := by
            have hmul := Nat.mul_le_mul_left (level + 1) hle
            have hpos := length_pos_of_ne_nil hsub.nonempty
            rw [Nat.succ_mul] at hfuel
            omega
          obtain ⟨seen', path', hrun, hdone, hall⟩ := ih
            (htail.children fun c hc => hkids c (hpicked.subset hc)) hroom
            (h.push hload hshape fun _ => hcollect)
          refine ⟨seen', path', ?_, hdone, fun c hc => hall c (hkept hc)⟩
          rw [if_neg (by simp [hint.leaf]), hcollect, ok_bind, hrun]

/-- Where the collected children verify, so does their parent. -/
theorem verifyChildren_isSome {d : Digests} {node : Node} {verify : Cid → Option (List Entry)}
    (h : Manager.collectChildren w spans = .ok cids)
    (hchild : ∀ c ∈ cids, ∃ m, nodeMapGet d nodes c = some m ∧ node.level = parentLevel m.level)
    (hverify : ∀ c ∈ cids, (verify c).isSome = true) :
    (verifyChildren d nodes w node verify spans).isSome = true := by
  induction spans generalizing cids with
  | nil => rfl
  | cons s spans ih =>
    rw [Manager.collectChildren] at h
    rw [verifyChildren]
    split_ifs at h ⊢ with hover hends
    · rfl
    · exact ih h hchild hverify
    · obtain ⟨childCid, hcid, h⟩ := of_bind h
      obtain ⟨cids', hcids, h⟩ := of_bind h
      obtain rfl := Except.ok.inj h
      obtain ⟨⟨m, hget, hlevel⟩, hchild⟩ := forall_mem_cons.mp hchild
      obtain ⟨hfound, hverify⟩ := forall_mem_cons.mp hverify
      have hbytes : Cid.ofBytes s.child = some childCid := by
        rw [childCidFromBytes] at hcid
        split at hcid
        · cases hcid
        · next c hc => rw [hc, Except.ok.inj hcid]
      obtain ⟨entries, hentries⟩ := Option.isSome_iff_exists.mp hfound
      simp [hbytes, hget, ← hlevel, hentries, ih hcids hchild hverify]

/-- The verifier finds every node it looks for. -/
theorem Collecting.verifyNode (h : Collecting p w [] seen nodes) (hd : p.FromBytes)
    (hsub : Subtree p level cid es) (hcid : cid ∈ seen)
    (hstack : ∀ c ∈ stack, ∀ n, p.loadArc c = .ok n → level < n.level) {depth : Nat}
    (hdepth : level < depth) : (verifyNode p.digests nodes w depth stack cid).isSome = true := by
  induction level generalizing cid es stack depth with
  | zero =>
    obtain _ | depth := depth
    · omega
    obtain ⟨n, hload, hleaf⟩ := hsub
    have hfresh : cid ∉ stack := fun hmem => by
      have := hstack cid hmem n hload
      have := hleaf.level
      omega
    obtain ⟨m, hm, hmcid⟩ := h.inPath cid hcid
    obtain rfl := h.genuine.eq_of_cid hm hmcid hload
    simp [Prolly.verifyNode, hfresh, h.genuine.nodeMapGet hm hload, hleaf.leaf]
  | succ level ih =>
    obtain _ | depth := depth
    · omega
    obtain ⟨n, kids, hload, hint, rfl, hkids⟩ := hsub
    have hlevel := hint.level
    have hfresh : cid ∉ stack := fun hmem => by
      have := hstack cid hmem n hload
      omega
    obtain ⟨m, hm, hmcid⟩ := h.inPath cid hcid
    obtain rfl := h.genuine.eq_of_cid hm hmcid hload
    rw [Prolly.verifyNode, if_neg hfresh, h.genuine.nodeMapGet hm hload, Option.bind_some,
      if_neg (by simp [hint.leaf])]
    obtain ⟨picked, hpicked, hcollect⟩ := hint.collectChildren (w := w) hkids
    obtain ⟨cids, hcids, hall⟩ := h.closed m hm hint.leaf
    obtain rfl := Except.ok.inj (hcollect.symm.trans hcids)
    have hseen : ∀ c ∈ picked.map Child.cid, c ∈ seen :=
      fun c hc => (hall c hc).resolve_right (by simp)
    have hchildren : ∀ c ∈ picked.map Child.cid, ∃ es, Subtree p level c es := by
      intro c hc
      obtain ⟨kid, hkid, rfl⟩ := mem_map.mp hc
      exact ⟨_, hkids kid (hpicked.subset hkid)⟩
    refine verifyChildren_isSome hcollect (fun c hc => ?_) (fun c hc => ?_)
    · obtain ⟨es, hsub⟩ := hchildren c hc
      obtain ⟨k, hk, hholds⟩ := subtree_iff.mp hsub
      obtain ⟨k', hk', hk'cid⟩ := h.inPath c (hseen c hc)
      obtain rfl := h.genuine.eq_of_cid hk' hk'cid hk
      exact ⟨k', h.genuine.nodeMapGet hk' hk, hholds.level_eq ▸ hd.parentLevel_eq hload hlevel⟩
    · obtain ⟨es, hsub⟩ := hchildren c hc
      refine ih hsub (hseen c hc) (forall_mem_cons.mpr ⟨fun k hk => ?_, fun c hc k hk => ?_⟩)
        (by omega)
      · obtain rfl := Except.ok.inj (hload.symm.trans hk)
        omega
      · exact (Nat.lt_succ_self level).trans (hstack c hc k hk)

/-- A prover's path through a window verifies, and lists the entries of the window. -/
theorem Manager.provePath_complete (hd : p.FromBytes) (hw : w.Lawful) {root : Option Cid}
    (h : Holds p root es) :
    Enough fun fuel => ∃ path,
      provePath w.isEmptyByBounds (fun cid => p.collectProofNodes w fuel [cid] [] []) root =
        .ok path ∧
      verifyWindow w.isEmptyByBounds (fun nodes => Prolly.verifyNode p.digests nodes w) root path =
        some (w.restrict es) := by
  cases root with
  | none =>
    obtain rfl : es = [] := h
    refine .of_forall fun fuel => ⟨[], rfl, ?_⟩
    simp [verifyWindow, proofNodeMap, Window.restrict]
  | some root =>
    obtain ⟨level, hsub⟩ := h
    refine ⟨(level + 1) * es.length + 1, fun fuel hfuel => ?_⟩
    simp only [provePath, verifyWindow]
    by_cases hempty : w.isEmptyByBounds = true
    · rw [Window.restrict_eq_nil fun e _ => hw.empty hempty e.1]
      exact ⟨[], if_pos hempty, if_pos hempty⟩
    · have hstart : Collecting p w [root] [] [] := ⟨by simp [Genuine], by simp, by simp⟩
      obtain ⟨seen, path, hrun, hdone, hall⟩ :=
        collectProofNodes_spec (.cons hsub .nil) (hfuel : _ + 0 < fuel) hstart
      refine ⟨path, by rw [if_neg hempty, hrun], ?_⟩
      rw [if_neg hempty, hdone.genuine.proofNodeMap, Option.bind_some]
      -- the depth the verifier starts with is as good as one above the height of the tree
      have hfound := hdone.verifyNode hd hsub (hall root (by simp)) (by simp : ∀ c ∈ [], _)
        (by omega : level < path.length + 1 + level)
      obtain ⟨found, hfound⟩ := Option.isSome_iff_exists.mp hfound
      rw [← verifyNode_depth root level, hfound,
        verifyNode_sound hdone.genuine.authentic hw hsub hfound]

end Windows

end Prolly
